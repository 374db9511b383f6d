import LoxLang.Evaluator
import LoxLang.Proofs.Stopping
import LoxLang.Proofs.Number.Texts

namespace LoxLang

namespace Number

/-- The number that a double stands for. The infinities, and what is no number, stand for none. -/
def toRat? (x : Float) : Option ℚ :=
  match parts x with
  | .finite negative magnitude => some (if negative then -magnitude.toRat else magnitude.toRat)
  | _ => none

theorem Dyadic.toRat_eq_intCast {d : Dyadic} {n : Int} : d.toRat = n ↔
    d.quotient.1 % d.quotient.2 = 0 ∧ ((d.quotient.1 / d.quotient.2 : Nat) : Int) = n := by
  have hpos := d.quotient_pos
  have hrat := d.toRat_quotient
  generalize d.quotient.1 = a at *
  generalize d.quotient.2 = b at *
  have hb : (b : ℚ) ≠ 0 := by exact_mod_cast hpos.ne'
  rw [hrat, div_eq_iff hb]
  constructor
  · intro h
    have hprod : (a : Int) = n * b := by exact_mod_cast h
    have hdvd : b ∣ a := Int.natCast_dvd_natCast.1 ⟨n, by rw [hprod, Int.mul_comm]⟩
    refine ⟨Nat.mod_eq_zero_of_dvd hdvd, ?_⟩
    rw [Int.natCast_div, hprod, Int.mul_ediv_cancel _ (by exact_mod_cast hpos.ne')]
  · rintro ⟨hmod, rfl⟩
    exact_mod_cast (Nat.div_mul_cancel (Nat.dvd_of_mod_eq_zero hmod)).symm

theorem toInt?_eq_some_iff {x : Float} {n : Int} : toInt? x = some n ↔ toRat? x = some (n : ℚ) := by
  unfold toInt? toRat?
  cases parts x with
  | finite negative d =>
    cases negative with
    | false =>
      simp only [Bool.false_eq_true, if_false, Option.some.injEq, Option.ite_none_right_eq_some,
        Dyadic.toRat_eq_intCast]
    | true =>
      have hneg : -d.toRat = (n : ℚ) ↔ d.toRat = ((-n : Int) : ℚ) := by rw [Int.cast_neg, neg_eq_iff_eq_neg]
      simp only [if_true, Option.some.injEq, Option.ite_none_right_eq_some, hneg, Dyadic.toRat_eq_intCast,
        neg_eq_iff_eq_neg]
  | infinite | notANumber => simp

end Number

/-- The value names the place of an item, counted from the front. Both zeros name the first. -/
def Value.Names (v : Value) (i : Nat) : Prop := ∃ x, v = .number x ∧ Number.toRat? x = some (i : ℚ)

/-- The value names no item of a list of the size: it is no number, or none that is whole, or it is outside. -/
inductive Value.Misnames (n : Native) (size : Nat) : Value → Fault.Cause → Prop
  | other {v : Value} (h : ∀ x, v ≠ .number x) : Misnames n size v (.notAnIndex n)
  | broken {x : Float} (h : ∀ i : Int, Number.toRat? x ≠ some (i : ℚ)) : Misnames n size (.number x) (.notAnIndex n)
  | outside {x : Float} {i : Int} (h : Number.toRat? x = some (i : ℚ)) (hi : i < 0 ∨ (size : Int) ≤ i) :
    Misnames n size (.number x) (.outOfRange i size)

namespace Native

open Stopping

variable {n : Native} {v : Value} {size i : Nat} {cause : Fault.Cause} {s : Store}

theorem names_or_misnames (n : Native) (size : Nat) (v : Value) :
    (∃ i < size, v.Names i) ∨ ∃ cause, v.Misnames n size cause := by
  by_cases hv : ∃ x, v = .number x
  · obtain ⟨x, rfl⟩ := hv
    by_cases hx : ∃ i : Int, Number.toRat? x = some (i : ℚ)
    · obtain ⟨i, hi⟩ := hx
      by_cases hin : 0 ≤ i ∧ i < size
      · obtain ⟨k, rfl⟩ := Int.eq_ofNat_of_zero_le hin.1
        exact .inl ⟨k, by exact_mod_cast hin.2, x, rfl, hi⟩
      · exact .inr ⟨_, .outside hi (by omega)⟩
    · exact .inr ⟨_, .broken (not_exists.1 hx)⟩
  · exact .inr ⟨_, .other (not_exists.1 hv)⟩

theorem asIndex_named (h : v.Names i) (hi : i < size) : n.asIndex size v s = .ok i s := by
  obtain ⟨x, rfl, hx⟩ := h
  have hwhole : Number.toInt? x = some (i : Int) := Number.toInt?_eq_some_iff.2 hx
  have hin : (0 : Int) ≤ i ∧ (i : Int) < size := ⟨Int.natCast_nonneg i, by exact_mod_cast hi⟩
  simp only [asIndex, hwhole, if_pos hin]
  rfl

theorem asIndex_misnamed (h : v.Misnames n size cause) : n.asIndex size v s = .error (.fault ⟨cause, none⟩) s := by
  cases h with
  | other hv =>
    cases v with
    | number x => exact absurd rfl (hv x)
    | _ => rfl
  | @broken x hx =>
    have hnone : Number.toInt? x = none :=
      Option.eq_none_iff_forall_ne_some.2 fun i hi => hx i (Number.toInt?_eq_some_iff.1 hi)
    simp only [asIndex, hnone]
    rfl
  | outside hx hi =>
    simp only [asIndex, Number.toInt?_eq_some_iff.2 hx]
    rw [if_neg (by omega)]
    rfl

theorem asList_other (h : ∀ id, v ≠ .list id) : n.asList v s = .error (.fault ⟨.notAList n, none⟩) s := by
  cases v with
  | list id => exact absurd rfl (h id)
  | _ => rfl

section place

variable {id : Nat} {args : List Value}

theorem place_other (h : ∀ id, v ≠ .list id) : n.place (v :: args) s = .error (.fault ⟨.notAList n, none⟩) s := by
  change (n.asList v >>= _) s = _
  exact bind_error (asList_other h)

theorem place_list (n : Native) (id : Nat) (v : Value) (args : List Value) (s : Store) :
    n.place (.list id :: v :: args) s = (n.asIndex (s.items id).size v >>= fun i => pure (id, i)) s := rfl

theorem place_named (h : v.Names i) (hi : i < (s.items id).size) :
    n.place (.list id :: v :: args) s = .ok (id, i) s := by
  rw [place_list, bind_ok (asIndex_named h hi)]
  rfl

theorem place_misnamed (h : v.Misnames n (s.items id).size cause) :
    n.place (.list id :: v :: args) s = .error (.fault ⟨cause, none⟩) s := by
  rw [place_list, bind_error (asIndex_misnamed h)]

end place

end Native

namespace Store

def putItems (s : Store) (id : Nat) (items : List Value) : Store :=
  { s with lists := s.lists.setIfInBounds id items.toArray }

variable {s : Store} {id other : Nat} {xs : List Value}

theorem putItems_items (s : Store) (id : Nat) : s.putItems id (s.items id).toList = s := by
  unfold putItems items
  congr
  apply Array.ext_getElem?
  intro i
  rw [Array.getElem?_setIfInBounds]
  split
  next h =>
    subst h
    split
    next hlt => simp [hlt]
    next hlt => simp [hlt]
  next => rfl

theorem items_putItems (h : id < s.lists.size) :
    (s.putItems id xs).items other = if other = id then xs.toArray else s.items other := by
  unfold putItems items
  rw [Array.getElem?_setIfInBounds]
  by_cases hid : id = other
  · subst hid
    simp [h]
  · simp [hid, Ne.symm hid]

theorem modify_items (h : id < s.lists.size) (f : Array Value → Array Value) :
    { s with lists := s.lists.modify id f } = s.putItems id (f (s.items id)).toList := by
  unfold putItems items
  congr
  apply Array.ext_getElem?
  intro i
  rw [Array.getElem?_modify, Array.getElem?_setIfInBounds]
  by_cases hid : id = i
  · subst hid
    simp [h]
  · simp [hid]

end Store

/-- A call of a function on lists, with the arguments that it takes. -/
inductive ListCall where
  | get (target index : Value)
  | set (target index item : Value)
  | add (target item : Value)
  | size (target : Value)

namespace ListCall

open Exec Stopping

def native : ListCall → Native
  | get .. => .get
  | set .. => .set
  | add .. => .add
  | size _ => .size

def args : ListCall → List Value
  | get target index => [target, index]
  | set target index item => [target, index, item]
  | add target item => [target, item]
  | size target => [target]

def target : ListCall → Value
  | get target _ | set target _ _ | add target _ | size target => target

def index? : ListCall → Option Value
  | get _ index | set _ index _ => some index
  | add .. | size _ => none

def run (c : ListCall) : Exec Value := c.native.apply c.args

/-- Why a call is refused: what should be a list is none, or the index names none of its items. -/
inductive Refused (s : Store) (c : ListCall) : Fault.Cause → Prop
  | target (h : ∀ id, c.target ≠ .list id) : Refused s c (.notAList c.native)
  | index {id : Nat} {v : Value} {cause : Fault.Cause} (htarget : c.target = .list id) (hindex : c.index? = some v)
      (h : v.Misnames c.native (s.items id).size cause) : Refused s c cause

/-- What a call answers on a sequence, and the sequence that it leaves. -/
inductive Answers : ListCall → List Value → Value → List Value → Prop
  | get {target index item : Value} {items : List Value} {i : Nat} (hi : index.Names i) (hitem : items[i]? = some item) :
    Answers (get target index) items item items
  | set {target index item old : Value} {items : List Value} {i : Nat} (hi : index.Names i)
      (hold : items[i]? = some old) : Answers (set target index item) items old (items.set i item)
  | add {target item : Value} {items : List Value} : Answers (add target item) items .nil (items ++ [item])
  | size {target : Value} {items : List Value} :
    Answers (size target) items (.number (Float.ofNat items.length)) items

/-- What is called with a list is called with one of the store's. -/
def Known (s : Store) (c : ListCall) : Prop := ∀ id, c.target = .list id → id < s.lists.size

variable {s : Store} {c : ListCall} {cause : Fault.Cause} {id : Nat} {v : Value} {items : List Value}

theorem args_length (c : ListCall) : c.args.length = c.native.arity := by cases c <;> rfl

theorem apply_eq (m : Evaluator) (c : ListCall) (line : Int) :
    m.apply (.native c.native) c.args line = blaming line c.run := if_pos c.args_length

theorem refused_or_answers (s : Store) (c : ListCall) : (∃ cause, c.Refused s cause) ∨
    ∃ id v items, c.target = .list id ∧ c.Answers (s.items id).toList v items := by
  by_cases htarget : ∃ id, c.target = .list id
  · obtain ⟨id, htarget⟩ := htarget
    have hitem : ∀ i < (s.items id).size, ∃ item, (s.items id).toList[i]? = some item :=
      fun i hi => ⟨_, List.getElem?_eq_getElem (by simpa using hi)⟩
    cases c with
    | get target index =>
      obtain ⟨i, hi, hnames⟩ | ⟨cause, h⟩ := Native.names_or_misnames .get (s.items id).size index
      · obtain ⟨item, hitem⟩ := hitem i hi
        exact .inr ⟨id, _, _, htarget, .get hnames hitem⟩
      · exact .inl ⟨cause, .index htarget rfl h⟩
    | set target index item =>
      obtain ⟨i, hi, hnames⟩ | ⟨cause, h⟩ := Native.names_or_misnames .set (s.items id).size index
      · obtain ⟨old, hold⟩ := hitem i hi
        exact .inr ⟨id, _, _, htarget, .set hnames hold⟩
      · exact .inl ⟨cause, .index htarget rfl h⟩
    | add => exact .inr ⟨id, _, _, htarget, .add⟩
    | size => exact .inr ⟨id, _, _, htarget, .size⟩
  · exact .inl ⟨_, .target (not_exists.1 htarget)⟩

theorem run_refused (h : c.Refused s cause) : c.run s = .error (.fault ⟨cause, none⟩) s := by
  cases h with
  | target h =>
    cases c with
    | get target index | set target index item => exact bind_error (Native.place_other h)
    | add target item =>
      change (Native.add.asList target >>= _) s = _
      exact bind_error (Native.asList_other h)
    | size target =>
      change (Native.size.asList target >>= _) s = _
      exact bind_error (Native.asList_other h)
  | @index id v _ htarget hindex h =>
    cases c with
    | get target index | set target index item =>
      obtain rfl : target = _ := htarget
      obtain rfl := Option.some.inj hindex
      exact bind_error (Native.place_misnamed h)
    | add | size => cases hindex

theorem run_answers (htarget : c.target = .list id) (hknown : id < s.lists.size)
    (h : c.Answers (s.items id).toList v items) : c.run s = .ok v (s.putItems id items) := by
  have hlt : ∀ {i : Nat} {item : Value}, (s.items id).toList[i]? = some item →
      i < (s.items id).size ∧ (s.items id)[i]?.getD .nil = item := by
    intro i item hitem
    obtain ⟨hi, rfl⟩ := List.getElem?_eq_some_iff.1 hitem
    have hin : i < (s.items id).size := by simpa using hi
    exact ⟨hin, by simp [hin]⟩
  cases h with
  | @get target index item _ i hi hitem =>
    obtain rfl : target = _ := htarget
    obtain ⟨hin, rfl⟩ := hlt hitem
    rw [s.putItems_items id]
    exact bind_ok (Native.place_named hi hin)
  | @set target index item old _ i hi hold =>
    obtain rfl : target = _ := htarget
    obtain ⟨hin, rfl⟩ := hlt hold
    rw [← Array.toList_setIfInBounds, ← s.modify_items hknown (·.setIfInBounds i item)]
    exact bind_ok (Native.place_named hi hin)
  | @add target item =>
    obtain rfl : target = _ := htarget
    rw [← Array.toList_push, ← s.modify_items hknown (·.push item)]
    rfl
  | @size target =>
    obtain rfl : target = _ := htarget
    rw [s.putItems_items id, Array.length_toList]
    rfl

/-- What becomes of a call. It is refused just for the causes there are, and answered just as on a sequence. -/
structure Served (c : ListCall) (s : Store) : Prop where
  refused : ∀ f t, c.run s = .error (.fault f) t ↔ f.line = none ∧ c.Refused s f.cause ∧ t = s
  answered : ∀ v t, c.run s = .ok v t ↔
    ∃ id items, c.target = .list id ∧ c.Answers (s.items id).toList v items ∧ t = s.putItems id items
  ends : (∃ f, c.run s = .error (.fault f) s) ∨ ∃ v t, c.run s = .ok v t

theorem served (hknown : c.Known s) : c.Served s := by
  have hanswers : ∀ {id v items}, c.target = .list id → c.Answers (s.items id).toList v items →
      c.run s = .ok v (s.putItems id items) := fun htarget => run_answers htarget (hknown _ htarget)
  obtain ⟨cause, h⟩ | ⟨id, v, items, htarget, h⟩ := refused_or_answers s c
  · have hrun := run_refused h
    refine ⟨fun f t => ⟨fun hf => ?_, fun ⟨hline, hcause, ht⟩ => ?_⟩, fun v t => ⟨fun hv => ?_, ?_⟩, .inl ⟨_, hrun⟩⟩
    · rw [hrun] at hf
      cases hf
      exact ⟨rfl, h, rfl⟩
    · obtain ⟨cause, line⟩ := f
      obtain rfl : line = none := hline
      rw [ht, run_refused hcause]
    · rw [hrun] at hv
      cases hv
    · rintro ⟨id, items, htarget, h, -⟩
      rw [hanswers htarget h] at hrun
      cases hrun
  · have hrun := hanswers htarget h
    refine ⟨fun f t => ⟨fun hf => ?_, fun ⟨_, hcause, _⟩ => ?_⟩, fun v t => ⟨fun hv => ?_, ?_⟩, .inr ⟨_, _, hrun⟩⟩
    · rw [hrun] at hf
      cases hf
    · rw [run_refused hcause] at hrun
      cases hrun
    · rw [hrun] at hv
      cases hv
      exact ⟨id, items, htarget, h, rfl⟩
    · rintro ⟨id, items, htarget, h, rfl⟩
      exact hanswers htarget h

theorem Answers.length_le {before : List Value} (h : c.Answers before v items) : before.length ≤ items.length := by
  cases h with
  | get | size => exact Nat.le_refl _
  | set => simp
  | add => simp

/-- The store after calls, whatever became of each. -/
def after (calls : List ListCall) (s : Store) : Store := calls.foldl (fun s c => storeAfter (c.run s)) s

end ListCall

/-- A later store that differs in its lists alone: none is gone, and none is shorter. -/
structure Store.Grows (s t : Store) : Prop where
  others : t = { s with lists := t.lists }
  lists : t.lists.size = s.lists.size
  items : ∀ id, (s.items id).size ≤ (t.items id).size

namespace Store.Grows

variable {s t u : Store}

theorem refl (s : Store) : s.Grows s := ⟨rfl, rfl, fun _ => Nat.le_refl _⟩

theorem trans (h : s.Grows t) (h' : t.Grows u) : s.Grows u where
  others := by rw [h'.others, h.others]
  lists := h'.lists.trans h.lists
  items id := Nat.le_trans (h.items id) (h'.items id)

theorem putItems {id : Nat} {xs : List Value} (hid : id < s.lists.size) (h : (s.items id).size ≤ xs.length) :
    s.Grows (s.putItems id xs) where
  others := rfl
  lists := Array.size_setIfInBounds
  items other := by
    rw [items_putItems hid]
    split
    next hother => simpa [hother] using h
    next => exact Nat.le_refl _

end Store.Grows

namespace ListCall

open Exec

theorem run_grows {s : Store} {c : ListCall} (hknown : c.Known s) : s.Grows (storeAfter (c.run s)) := by
  obtain ⟨f, hf⟩ | ⟨v, t, ht⟩ := (served hknown).ends
  · rw [hf]
    exact .refl s
  · obtain ⟨id, items, htarget, h, rfl⟩ := ((served hknown).answered v t).1 ht
    rw [ht]
    exact .putItems (hknown id htarget) (by simpa using h.length_le)

theorem after_grows {s : Store} {calls : List ListCall} (hknown : ∀ c ∈ calls, c.Known s) :
    s.Grows (after calls s) := by
  induction calls generalizing s with
  | nil => exact .refl s
  | cons c calls ih =>
    obtain ⟨hc, hcalls⟩ := List.forall_mem_cons.1 hknown
    have hstep := run_grows hc
    exact hstep.trans (ih fun d hd id htarget => hstep.lists ▸ hcalls d hd id htarget)

end ListCall

/-- However often the functions on lists are called, and with whatever arguments, each call is refused or answered as
on a sequence of the items that the calls before it left, and no list is ever shorter than before. -/
theorem list_calls_sequential (s : Store) (calls : List ListCall) (hknown : ∀ c ∈ calls, c.Known s) :
    (∀ before c later, calls = before ++ c :: later → c.Served (ListCall.after before s)) ∧
      s.Grows (ListCall.after calls s) ∧
      ∀ (m : Evaluator) (c : ListCall) (line : Int),
        m.apply (.native c.native) c.args line = Exec.blaming line c.run := by
  refine ⟨fun before c later hcalls => ?_, ListCall.after_grows hknown, ListCall.apply_eq⟩
  obtain ⟨hbefore, hrest⟩ := List.forall_mem_append.1 (hcalls ▸ hknown)
  have hgrows := ListCall.after_grows hbefore
  exact ListCall.served fun id htarget => hgrows.lists ▸ (List.forall_mem_cons.1 hrest).1 id htarget

def knottedStore : Store := { lists := #[#[.list 0, .list 1], #[]] }

def knottedCalls : List ListCall :=
  [.set (.list 0) (.number (-1)) .nil, .add (.list 1) (.list 0), .get (.list 0) (.number (-0.0)), .size .nil]

theorem knottedCalls_sequential : (∀ c ∈ knottedCalls, c.Known knottedStore) ∧
    (ListCall.set (.list 0) (.number (-1)) .nil).run knottedStore =
      .error (.fault ⟨.outOfRange (-1) 2, none⟩) knottedStore ∧
    (∃ t, (ListCall.get (.list 0) (.number (-0.0))).run (ListCall.after (knottedCalls.take 2) knottedStore) =
      .ok (.list 0) t) ∧
    knottedStore.Grows (ListCall.after knottedCalls knottedStore) := by
  have hknown : ∀ c ∈ knottedCalls, c.Known knottedStore := by
    simp [knottedCalls, knottedStore, ListCall.Known, ListCall.target]
  obtain ⟨hserved, hgrows, -⟩ := list_calls_sequential knottedStore knottedCalls hknown
  refine ⟨hknown, ?_, ?_, hgrows⟩
  · have hindex : Number.toRat? (-1) = some ((-1 : Int) : ℚ) := Number.toInt?_eq_some_iff.1 (by decide +kernel)
    exact ((hserved [] _ _ rfl).refused ⟨_, none⟩ _).2 ⟨rfl, .index rfl rfl (.outside hindex (by decide)), rfl⟩
  · have hindex : Number.toRat? (-0.0) = some ((0 : Int) : ℚ) := Number.toInt?_eq_some_iff.1 (by decide +kernel)
    refine ⟨_, ((hserved (knottedCalls.take 2) _ _ rfl).answered _ _).2 ⟨0, _, rfl, .get (i := 0) ⟨_, rfl, ?_⟩ rfl, rfl⟩⟩
    exact_mod_cast hindex

end LoxLang

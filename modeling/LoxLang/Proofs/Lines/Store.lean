import LoxLang.Eval
import LoxLang.Proofs.Lines.Tree
import LoxLang.Proofs.Running.Operators

namespace LoxLang

theorem map_modify {α β : Type} {g : α → β} {h : α → α} {h' : β → β} (hh : ∀ a, h' (g a) = g (h a)) (as : Array α)
    (i : Nat) : (as.modify i h).map g = (as.map g).modify i h' := by
  apply Array.ext
  · simp
  · intro j _ _
    simp only [Array.getElem_map, Array.getElem_modify]
    split
    · exact (hh _).symm
    · rfl

namespace Bindings

variable {α β : Type} (g : α → β)

def map (b : Bindings α) : Bindings β := ⟨b.entries.map (Prod.map id g)⟩

@[simp]
theorem find?_map (b : Bindings α) (name : String) : (b.map g).find? name = (b.find? name).map g := by
  obtain ⟨entries⟩ := b
  unfold find? map
  induction entries with
  | nil => rfl
  | cons entry rest ih =>
    obtain ⟨n, v⟩ := entry
    rw [List.map_cons, Prod.map_apply, List.lookup_cons, List.lookup_cons, id_eq]
    cases name == n with
    | true => rfl
    | false => exact ih

@[simp]
theorem contains_map (b : Bindings α) (name : String) : (b.map g).contains name = b.contains name := by
  simp [contains]

@[simp]
theorem map_put (b : Bindings α) (name : String) (v : α) : (b.put name v).map g = (b.map g).put name (g v) := by
  obtain ⟨entries⟩ := b
  unfold put map
  congr 1
  induction entries with
  | nil => rfl
  | cons entry rest ih =>
    obtain ⟨n, u⟩ := entry
    by_cases h : name = n
    · simp [putEntry, h]
    · simpa [putEntry, h] using ih

theorem map_modify_put (bs : Array (Bindings α)) (i : Nat) (name : String) (v : α) :
    (bs.modify i (·.put name v)).map (map g) = (bs.map (map g)).modify i (·.put name (g v)) :=
  map_modify (fun b => (b.map_put g name v).symm) bs i

end Bindings

namespace Frames

variable {α β : Type} (g : α → β)

def map (fs : Frames α) : Frames β := ⟨fs.slots.map (Bindings.map g)⟩

variable (fs : Frames α)

@[simp]
theorem size_map : (fs.map g).size = fs.size := by simp [map, size]

@[simp]
theorem frame_map (n : Nat) : (fs.map g).frame n = (fs.frame n).map g := by
  unfold frame map
  rw [Array.getElem?_map]
  cases fs.slots[n]? <;> rfl

@[simp]
theorem map_push (b : Bindings α) : (fs.push b).map g = (fs.map g).push (b.map g) := by simp [map, push]

@[simp]
theorem map_define (n : Nat) (name : String) (v : α) :
    (fs.define n name v).map g = (fs.map g).define n name (g v) := by
  simp only [map, define, Bindings.map_modify_put]

@[simp]
theorem find?_map (name : String) (c : Chain) : (fs.map g).find? name c = (fs.find? name c).map g := by
  induction c with
  | root n => simp [find?]
  | link n outer ih =>
    rw [find?, find?, frame_map, Bindings.find?_map, ih]
    cases (fs.frame n).find? name <;> rfl

@[simp]
theorem holder?_map (name : String) (c : Chain) : (fs.map g).holder? name c = fs.holder? name c := by
  induction c with
  | root n => simp [holder?]
  | link n outer ih => simp [holder?, ih]

@[simp]
theorem findAt?_map (c : Chain) (distance : Nat) (name : String) :
    (fs.map g).findAt? c distance name = (fs.findAt? c distance name).map (Option.map g) := by
  unfold findAt?
  cases c.out? distance <;> simp

end Frames

variable (f : Int → Int)

def Routine.reline (r : Routine) : Routine := { r with definition := r.definition.reline f }

def Class.reline (c : Class) : Class := ⟨c.name, c.methods.map (Routine.reline f)⟩

namespace Value

def reline : Value → Value
  | .function id r => .function id (r.reline f)
  | .classDef id c => .classDef id (c.reline f)
  | .object id c => .object id (c.reline f)
  | v => v

theorem alike_reline (v : Value) : Alike v (v.reline f) := by
  cases v with
  | function id r => exact .function id rfl
  | classDef id c => exact .classDef id rfl
  | object id c => exact .object id rfl
  | _ => constructor

theorem lookalike_reline : Lookalike fun v v' => v' = v.reline f where
  alike := fun h => h ▸ alike_reline f _
  nil := rfl
  bool _ := rfl
  number _ := rfl
  text _ := rfl

variable (v w : Value)

@[simp]
theorem truthy_reline : (v.reline f).truthy = v.truthy := (alike_reline f v).truthy_eq

end Value

def Outcome.reline : Outcome → Outcome
  | .returned v => .returned (v.reline f)
  | o => o

def Fault.reline (x : Fault) : Fault := ⟨x.cause, x.line.map f⟩

def Stop.reline : Stop → Stop
  | .fault x => .fault (x.reline f)
  | e => e

namespace Store

variable (s : Store)

def reline : Store :=
  { s with
    frames := s.frames.map (Value.reline f)
    lists := s.lists.map (Array.map (Value.reline f))
    objects := s.objects.map (Bindings.map (Value.reline f)) }

@[simp]
theorem frames_reline : (s.reline f).frames = s.frames.map (Value.reline f) := rfl

@[simp]
theorem chain_reline : (s.reline f).chain = s.chain := rfl

@[simp]
theorem printed_reline : (s.reline f).printed = s.printed := rfl

@[simp]
theorem fields_reline (id : Nat) : (s.reline f).fields id = (s.fields id).map (Value.reline f) := by
  unfold fields reline
  rw [Array.getElem?_map]
  cases s.objects[id]? <;> rfl

theorem reline_initial (clock : Clock) : ({ clock := clock } : Store).reline f = { clock := clock } := by
  simp [reline, Frames.map, Bindings.map, nativeBindings, Native.all, Value.reline]

end Store

end LoxLang

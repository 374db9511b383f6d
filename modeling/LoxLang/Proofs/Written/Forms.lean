import LoxLang.Tree.Written
import Mathlib.Data.List.Basic

namespace LoxLang

inductive Form where
  | atom (text : List Char)
  | node (parts : List Form)

namespace Form

mutual

def render : Form → List Char
  | atom text => text
  | node [] => ['(', ')']
  | node (f :: fs) => '(' :: f.render ++ renderAfter ' ' fs ++ [')']

def renderAfter (separator : Char) : List Form → List Char
  | [] => []
  | f :: fs => separator :: f.render ++ renderAfter separator fs

end

def renderAll (separator : Char) : List Form → List Char
  | [] => []
  | f :: fs => f.render ++ renderAfter separator fs

def delimiters : List Char := [' ', '\n', ')']

/-- A form whose atoms are words, or quoted with no quote inside. -/
inductive Sound : Form → Prop
  | word {text : List Char} (hne : text ≠ []) (h : ∀ c ∈ text, c ∉ '(' :: '\"' :: delimiters) : Sound (atom text)
  | quoted {inner : List Char} (h : '\"' ∉ inner) : Sound (atom ('\"' :: inner ++ ['\"']))
  | node {parts : List Form} (h : ∀ f ∈ parts, Sound f) : Sound (node parts)

theorem Sound.of_all {text : List Char}
    (h : text ≠ [] ∧ (text.all fun c => c ∉ '(' :: '\"' :: delimiters) = true) : (atom text).Sound :=
  .word h.1 fun c hc => of_decide_eq_true (List.all_eq_true.1 h.2 c hc)

def Ends (rest : List Char) : Prop := ∀ c ∈ rest.head?, c ∈ delimiters

theorem render_node (parts : List Form) : (node parts).render = '(' :: renderAll ' ' parts ++ [')'] := by
  cases parts with
  | nil => simp [render, renderAll]
  | cons f fs => simp [render, renderAll]

theorem Sound.head {f : Form} (h : f.Sound) : ∃ c cs, f.render = c :: cs ∧ c ∉ delimiters := by
  cases h with
  | @word text hne h =>
    obtain ⟨c, cs, rfl⟩ := List.exists_cons_of_ne_nil hne
    exact ⟨c, cs, by simp [render], fun hc => h c (List.mem_cons_self ..)
      (List.mem_cons_of_mem _ (List.mem_cons_of_mem _ hc))⟩
  | quoted => exact ⟨'\"', _, by simp [render]; rfl, by decide⟩
  | node => exact ⟨'(', _, by rw [render_node]; rfl, by decide⟩

/-- The text of a form before its end is that of no other form. -/
def Readable (f : Form) : Prop :=
  ∀ {g : Form} {rest rest' : List Char}, g.Sound → Ends rest → Ends rest' → f.render ++ rest = g.render ++ rest' →
    f = g ∧ rest = rest'

theorem ends_renderAfter {separator : Char} (hs : separator ∈ delimiters) {rest : List Char} (h : Ends rest)
    (fs : List Form) : Ends (renderAfter separator fs ++ rest) := by
  cases fs with
  | nil => simpa [renderAfter] using h
  | cons f fs => simpa [renderAfter, Ends] using hs

def Closes (separator : Char) (rest : List Char) : Prop := Ends rest ∧ ∀ c ∈ rest.head?, c ≠ separator

theorem renderAfter_unique {separator : Char} (hs : separator ∈ delimiters) {fs gs : List Form}
    {rest rest' : List Char} (hfs : ∀ f ∈ fs, f.Readable) (hgs : ∀ g ∈ gs, g.Sound) (hrest : Closes separator rest)
    (hrest' : Closes separator rest') (h : renderAfter separator fs ++ rest = renderAfter separator gs ++ rest') :
    fs = gs ∧ rest = rest' := by
  induction fs generalizing gs with
  | nil =>
    cases gs with
    | nil => simpa [renderAfter] using h
    | cons g gs => exact absurd rfl (hrest.2 separator (by simp_all [renderAfter]))
  | cons f fs ih =>
    cases gs with
    | nil => exact absurd rfl (hrest'.2 separator (by simp [← show _ = rest' from h, renderAfter]))
    | cons g gs =>
      rw [List.forall_mem_cons] at hfs hgs
      simp only [renderAfter, List.cons_append, List.append_assoc, List.cons.injEq, true_and] at h
      obtain ⟨rfl, hafter⟩ := hfs.1 hgs.1 (ends_renderAfter hs hrest.1 fs) (ends_renderAfter hs hrest'.1 gs) h
      obtain ⟨rfl, rfl⟩ := ih hfs.2 hgs.2 hafter
      exact ⟨rfl, rfl⟩

theorem renderAll_unique {separator : Char} (hs : separator ∈ delimiters) {fs gs : List Form}
    {rest rest' : List Char} (hfs : ∀ f ∈ fs, f.Readable) (hfs' : ∀ f ∈ fs, f.Sound) (hgs : ∀ g ∈ gs, g.Sound)
    (hrest : Closes separator rest) (hrest' : Closes separator rest')
    (h : renderAll separator fs ++ rest = renderAll separator gs ++ rest') : fs = gs ∧ rest = rest' := by
  -- Where one list has a form and the other none, the form starts with no delimiter.
  have hstart : ∀ {g : Form} {more tail : List Char}, g.Sound → Ends tail → g.render ++ more ≠ tail := by
    rintro g more tail hg htail rfl
    obtain ⟨c, cs, hc, hne⟩ := hg.head
    exact hne (htail c (by simp [hc]))
  cases fs with
  | nil =>
    cases gs with
    | nil => exact ⟨rfl, h⟩
    | cons g gs =>
      rw [renderAll, renderAll, List.append_assoc] at h
      exact absurd h.symm (hstart (hgs g (List.mem_cons_self ..)) hrest.1)
  | cons f fs =>
    cases gs with
    | nil =>
      rw [renderAll, renderAll, List.append_assoc] at h
      exact absurd h (hstart (hfs' f (List.mem_cons_self ..)) hrest'.1)
    | cons g gs =>
      rw [List.forall_mem_cons] at hfs hgs
      simp only [renderAll, List.append_assoc] at h
      obtain ⟨rfl, hafter⟩ := hfs.1 hgs.1 (ends_renderAfter hs hrest.1 fs) (ends_renderAfter hs hrest'.1 gs) h
      obtain ⟨rfl, rfl⟩ := renderAfter_unique hs hfs.2 hgs.2 hrest hrest' hafter
      exact ⟨rfl, rfl⟩

theorem takeWhile_word {text rest : List Char} (h : ∀ c ∈ text, c ∉ '(' :: '\"' :: delimiters) (hrest : Ends rest) :
    (text ++ rest).takeWhile (fun c => c ∉ delimiters) = text ∧
      (text ++ rest).dropWhile (fun c => c ∉ delimiters) = rest := by
  have hall : ∀ c ∈ text, decide (c ∉ delimiters) = true := fun c hc => by
    simpa using fun hd => h c hc (List.mem_cons_of_mem _ (List.mem_cons_of_mem _ hd))
  rw [List.takeWhile_append_of_pos hall, List.dropWhile_append_of_pos hall]
  cases rest with
  | nil => simp
  | cons c rest => simp [hrest c rfl]

theorem word_ne {text more tail : List Char} {c : Char} (hne : text ≠ [])
    (h : ∀ c ∈ text, c ∉ '(' :: '\"' :: delimiters) (hc : c = '(' ∨ c = '\"') : text ++ more ≠ c :: tail := by
  obtain ⟨d, ds, rfl⟩ := List.exists_cons_of_ne_nil hne
  intro he
  have hd : d = c := (List.cons.inj he).1
  subst hd
  exact h d (List.mem_cons_self ..) (by rcases hc with rfl | rfl <;> simp)

theorem readable_word {text : List Char} (hne : text ≠ []) (h : ∀ c ∈ text, c ∉ '(' :: '\"' :: delimiters) :
    (atom text).Readable := by
  intro g rest rest' hg hrest hrest' htext
  cases hg with
  | @word text' _ h' =>
    simp only [render] at htext
    obtain ⟨hword, hafter⟩ := takeWhile_word h hrest
    obtain ⟨hword', hafter'⟩ := takeWhile_word h' hrest'
    rw [htext] at hword hafter
    exact ⟨congrArg atom (hword.symm.trans hword'), hafter.symm.trans hafter'⟩
  | quoted => exact absurd htext (word_ne hne h (.inr rfl))
  | node =>
    rw [render_node] at htext
    exact absurd htext (word_ne hne h (.inl rfl))

theorem readable_quoted {inner : List Char} (h : '\"' ∉ inner) : (atom ('\"' :: inner ++ ['\"'])).Readable := by
  intro g rest rest' hg hrest hrest' htext
  cases hg with
  | word hne' h' => exact absurd htext.symm (word_ne hne' h' (.inr rfl))
  | @quoted inner' h' =>
    have hbefore : ∀ {text : List Char}, '\"' ∉ text → ∀ tail,
        (text ++ '\"' :: tail).takeWhile (· ≠ '\"') = text := by
      intro text hquote tail
      rw [List.takeWhile_append_of_pos fun c hc => by simpa using fun he : c = '\"' => hquote (he ▸ hc)]
      simp
    have htail : inner ++ '\"' :: rest = inner' ++ '\"' :: rest' := by simpa [render] using htext
    have hinner : inner = inner' := (hbefore h rest).symm.trans ((congrArg _ htail).trans (hbefore h' rest'))
    subst hinner
    exact ⟨rfl, (List.cons.inj (List.append_cancel_left htail)).2⟩
  | node =>
    rw [render_node] at htext
    exact absurd (List.cons.inj htext).1 (by decide)

theorem readable_node {parts : List Form} (h : ∀ f ∈ parts, f.Sound) (ih : ∀ f ∈ parts, f.Readable) :
    (node parts).Readable := by
  intro g rest rest' hg hrest hrest' htext
  cases hg with
  | word hne' h' =>
    rw [render_node] at htext
    exact absurd htext.symm (word_ne hne' h' (.inl rfl))
  | quoted =>
    rw [render_node] at htext
    exact absurd (List.cons.inj htext).1 (by decide)
  | @node parts' h' =>
    have hclose : ∀ tail, Closes ' ' (')' :: tail) := fun tail => ⟨by simp [Ends, delimiters], by simp⟩
    rw [render_node, render_node, List.cons_append, List.cons_append, List.append_assoc, List.append_assoc] at htext
    obtain ⟨rfl, hafter⟩ := renderAll_unique (by decide) ih h h' (hclose rest) (hclose rest') (List.cons.inj htext).2
    exact ⟨rfl, (List.cons.inj hafter).2⟩

theorem Sound.readable {f : Form} (h : f.Sound) : f.Readable := by
  induction h with
  | word hne h => exact readable_word hne h
  | quoted h => exact readable_quoted h
  | node h ih => exact readable_node h ih

/-- Lists of forms that are written alike, each on a line of its own, are the same. -/
theorem renderAll_injective {separator : Char} (hs : separator ∈ delimiters) {fs gs : List Form}
    (hfs : ∀ f ∈ fs, f.Sound) (hgs : ∀ g ∈ gs, g.Sound)
    (h : renderAll separator fs = renderAll separator gs) : fs = gs := by
  have hend : Closes separator [] := ⟨by simp [Ends], by simp⟩
  exact (renderAll_unique hs (fun f hf => (hfs f hf).readable) hfs hgs hend hend (by simpa using h)).1

end Form

end LoxLang

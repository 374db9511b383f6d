import Mathlib.Data.List.Induction
import LoxLang.Proofs.Receivers.Sites

namespace LoxLang

/-- The innermost call whose body runs inside these nodes. -/
def running? : List Site → Option Site
  | ⟨.stmt _, _, _, _, _⟩ :: call :: σ => if call.node.isCall then some call else running? (call :: σ)
  | _ :: σ => running? σ
  | [] => none

/-- Each node has begun inside those around it, and a call has the `this` of the body that it runs. -/
inductive Coherent (past : List Moment) : List Site → Prop
  | nil : Coherent past []
  | cons {site : Site} {σ : List Site} (h : Coherent past σ) (hcame : .came site.node site.store ∈ past)
    (hready : ∃ m ∈ past, m.store = site.ready) (hbegun : Begun site.store.scene site.store.self? σ site.node)
    (hself : ∀ t call outer, site.node = .stmt t → σ = call :: outer → call.node.isCall = true →
      call.self = site.store.self?) : Coherent past (site :: σ)

theorem Begun.enter {w : Scene} {a b : Option Value} {σ : List Site} {t u : Stmt} (h : Begun w a σ (.stmt t)) :
    Begun w a (Site.enter b σ) (.stmt u) := by
  cases h with
  | top hσ ha => exact .top (by rw [hσ]; rfl) ha
  | @inside site outer hσ hj ha =>
    obtain ⟨v, hv⟩ := hj.resolve_left (by simp)
    have hsame : Site.enter b σ = site :: outer := by simp [hσ, Site.enter, Site.atCall, hv, Node.isCall]
    exact .inside hsame (.inr ⟨v, hv⟩) ha
  | @body call outer _ hσ hcall hj hruns =>
    have hsame : Site.enter b σ = { call with self := b } :: outer := by simp [hσ, Site.enter, Site.atCall, hcall]
    refine .body hsame hcall rfl ?_
    cases hruns with
    | function hcallee ha => exact .function hcallee ha
    | initializer hcallee ha hnew => exact .initializer hcallee ha hnew

namespace Coherent

variable {past : List Moment} {σ outer : List Site} {site call : Site}

theorem atCall {f : Site → Site} (h : Coherent past σ) (hf : ∀ site, (f site).node = site.node ∧
    (f site).store = site.store ∧ ((f site).ready = site.ready ∨ ∃ m ∈ past, m.store = (f site).ready)) :
    Coherent past (Site.atCall f σ) := by
  cases h with
  | nil => exact .nil
  | @cons site σ h hcame hready hbegun hself =>
    simp only [Site.atCall, List.modifyHead_cons]
    split
    · obtain ⟨hnode, hstore, hready'⟩ := hf site
      refine .cons h (by rwa [hnode, hstore]) ?_ (by rwa [hnode, hstore]) (by rwa [hnode, hstore])
      exact hready'.elim (fun hsame => hsame ▸ hready) id
    · exact .cons h hcame hready hbegun hself

theorem tail (h : Coherent past σ) : Coherent past σ.tail := by
  cases h with
  | nil => exact .nil
  | cons h => exact h

theorem ready (h : Coherent past σ) (hσ : σ = site :: outer) : ∃ m ∈ past, m.store = site.ready := by
  subst hσ
  cases h with
  | cons _ _ hready => exact hready

theorem mono {m : Moment} (h : Coherent past σ) : Coherent (past ++ [m]) σ := by
  induction h with
  | nil => exact .nil
  | cons _ hcame hready hbegun hself ih =>
    obtain ⟨m', hm', hstore⟩ := hready
    exact .cons ih (List.mem_append_left _ hcame) ⟨m', List.mem_append_left _ hm', hstore⟩ hbegun hself

theorem after {m : Moment} (h : Coherent past (sites past)) (hm : m.Apt past) :
    Coherent (past ++ [m]) (sites (past ++ [m])) := by
  rw [sites_append]
  have h' := h.mono (m := m)
  have hlast : m ∈ past ++ [m] := List.mem_append_right _ (List.mem_singleton_self m)
  cases m with
  | came j s =>
    cases j with
    | stmt t =>
      have hentered : Coherent (past ++ [.came (.stmt t) s]) (Site.enter s.self? (sites past)) :=
        h'.atCall fun _ => ⟨rfl, rfl, .inl rfl⟩
      exact .cons hentered hlast ⟨_, hlast, rfl⟩ (Begun.enter hm) fun _ _ _ _ => Site.self_of_enter
    | expr _ | lambda _ =>
      refine .cons h' hlast ⟨_, hlast, rfl⟩ hm fun _ _ _ hnode => ?_
      cases hnode
  | gave e v s =>
    have hgiven : Coherent (past ++ [.gave e v s]) (Site.give v s (sites past).tail) :=
      h'.tail.atCall fun _ => ⟨rfl, rfl, .inr ⟨_, hlast, rfl⟩⟩
    exact hgiven
  | ended | stopped => exact h'.tail

theorem of_told (h : ∀ earlier m later, past = earlier ++ m :: later → Received earlier m) :
    Coherent past (sites past) := by
  induction past using List.reverseRecOn with
  | nil => exact .nil
  | append_singleton past m ih =>
    refine (ih fun earlier m' later heq => ?_).after (h past m [] rfl).apt
    exact h earlier m' (later ++ [m]) (by rw [heq, List.append_assoc, List.cons_append])

/-- At a node `this` is that of the call whose body runs. -/
theorem self?_eq (h : Coherent past σ) (hσ : σ = site :: outer) :
    site.store.self? = (running? σ).bind Site.self := by
  induction h generalizing site outer with
  | nil => cases hσ
  | @cons head rest h _ _ hbegun hself ih =>
    obtain ⟨rfl, rfl⟩ := List.cons.inj hσ
    obtain ⟨node, s, callee, ready, b⟩ := head
    cases hbegun with
    | top hrest ha =>
      subst hrest
      cases node <;> exact ha
    | @inside next rest' hrest hj ha =>
      refine ha.trans ((ih hrest).trans ?_)
      subst hrest
      obtain ⟨e, he⟩ | ⟨u, hu⟩ := hj
      · obtain rfl : node = .expr e := he
        rfl
      · cases node <;> simp [running?, hu, Node.isCall]
    | @body call rest' t hrest hcall hj hruns =>
      subst hrest
      obtain rfl : node = .stmt t := hj
      rw [running?, if_pos hcall]
      exact (hself t call rest' rfl rfl hcall).symm

theorem runs (h : Coherent past σ) (hcall : running? σ = some call) :
    ∃ j s, .came j s ∈ past ∧ call.Runs s.scene call.self := by
  induction h with
  | nil => cases hcall
  | @cons site σ h hcame _ hbegun hself ih =>
    obtain ⟨node, s, callee, ready, b⟩ := site
    cases hbegun with
    | top hσ ha =>
      subst hσ
      cases node <;> cases hcall
    | @inside outer rest' hσ hj ha =>
      subst hσ
      refine ih ?_
      obtain ⟨e, he⟩ | ⟨u, hu⟩ := hj
      · obtain rfl : node = .expr e := he
        exact hcall
      · cases node <;> simpa [running?, hu, Node.isCall] using hcall
    | @body other rest' t hσ hother hj hruns =>
      subst hσ
      obtain rfl : node = .stmt t := hj
      rw [running?, if_pos hother] at hcall
      obtain rfl := Option.some.inj hcall
      exact ⟨_, s, hcame, hself t other rest' rfl rfl hother ▸ hruns⟩

end Coherent

end LoxLang

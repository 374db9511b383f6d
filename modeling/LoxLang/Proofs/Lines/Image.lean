import LoxLang.Proofs.Stopping

namespace LoxLang.Stopping

variable {ε σ α β γ δ : Type}

def image (φ : σ → σ) (ψ : ε → ε) (g : α → β) : EStateM.Result ε σ α → EStateM.Result ε σ β
  | .ok a s => .ok (g a) (φ s)
  | .error e s => .error (ψ e) (φ s)

/-- On the image of a state the second action ends with the image of what the first ends with. -/
def Maps (φ : σ → σ) (ψ : ε → ε) (g : α → β) (p : EStateM ε σ α) (p' : EStateM ε σ β) : Prop :=
  ∀ s, p' (φ s) = image φ ψ g (p s)

namespace Maps

variable {φ : σ → σ} {ψ : ε → ε} {g : α → β} {p : EStateM ε σ α} {p' : EStateM ε σ β}

theorem ok (h : Maps φ ψ g p p') {s t : σ} {a : α} (hp : p s = .ok a t) : p' (φ s) = .ok (g a) (φ t) := by
  rw [h s, hp]
  rfl

theorem error (h : Maps φ ψ g p p') {s t : σ} {e : ε} (hp : p s = .error e t) :
    p' (φ s) = .error (ψ e) (φ t) := by
  rw [h s, hp]
  rfl

theorem of_ends (hok : ∀ {s a t}, p s = .ok a t → p' (φ s) = .ok (g a) (φ t))
    (herror : ∀ {s e t}, p s = .error e t → p' (φ s) = .error (ψ e) (φ t)) : Maps φ ψ g p p' := by
  intro s
  cases hp : p s with
  | ok a t => exact hok hp
  | error e t => exact herror hp

theorem pure {a : α} {b : β} (h : b = g a) : Maps φ ψ g (Pure.pure a) (Pure.pure b) := by
  intro s
  rw [h]
  rfl

theorem throw {e e' : ε} (h : e' = ψ e) : Maps φ ψ g (MonadExcept.throw e) (MonadExcept.throw e') := by
  intro s
  rw [h]
  rfl

theorem bind {f : γ → δ} {k : α → EStateM ε σ γ} {k' : β → EStateM ε σ δ} (hp : Maps φ ψ g p p')
    (hk : ∀ a, Maps φ ψ f (k a) (k' (g a))) : Maps φ ψ f (p >>= k) (p' >>= k') := by
  intro s
  cases hps : p s with
  | ok a t =>
    rw [bind_ok hps, bind_ok (hp.ok hps)]
    exact hk a t
  | error e t =>
    rw [bind_error hps, bind_error (hp.error hps)]
    rfl

theorem map {f : α → γ} {f' : β → δ} {g' : γ → δ} (hp : Maps φ ψ g p p') (h : ∀ a, f' (g a) = g' (f a)) :
    Maps φ ψ g' (p >>= fun a => Pure.pure (f a)) (p' >>= fun b => Pure.pure (f' b)) :=
  hp.bind fun a => pure (h a)

theorem fmap {f : α → γ} {f' : β → δ} {g' : γ → δ} (hp : Maps φ ψ g p p') (h : ∀ a, f' (g a) = g' (f a)) :
    Maps φ ψ g' (f <$> p) (f' <$> p') := by
  intro s
  cases hps : p s with
  | ok a t => simp only [Functor.map, EStateM.map, hps, hp.ok hps, h, image]
  | error e t => simp only [Functor.map, EStateM.map, hps, hp.error hps, image]

theorem get {f : γ → δ} {k : σ → EStateM ε σ γ} {k' : σ → EStateM ε σ δ}
    (hk : ∀ s, k' (φ s) (φ s) = image φ ψ f (k s s)) :
    Maps φ ψ f ((MonadState.get : EStateM ε σ σ) >>= k) ((MonadState.get : EStateM ε σ σ) >>= k') := hk

theorem modifyGet {f : σ → α × σ} {f' : σ → β × σ} (h : ∀ s, f' (φ s) = (g (f s).1, φ (f s).2)) :
    Maps φ ψ g (MonadStateOf.modifyGet f) (MonadStateOf.modifyGet f') := by
  intro s
  change EStateM.Result.ok (f' (φ s)).1 (f' (φ s)).2 = _
  rw [h s]
  rfl

theorem update {f f' : σ → σ} (h : ∀ s, f' (φ s) = φ (f s)) :
    Maps φ ψ id (modify f : EStateM ε σ Unit) (modify f') :=
  modifyGet fun s => by rw [h s]

theorem ite {c c' : Prop} [Decidable c] [Decidable c'] {q : EStateM ε σ α} {q' : EStateM ε σ β} (hc : c' ↔ c)
    (hp : Maps φ ψ g p p') (hq : Maps φ ψ g q q') :
    Maps φ ψ g (if c then p else q) (if c' then p' else q') := by
  by_cases h : c
  · rw [if_pos h, if_pos (hc.2 h)]
    exact hp
  · rw [if_neg h, if_neg (mt hc.1 h)]
    exact hq

end Maps

end LoxLang.Stopping

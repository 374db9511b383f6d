namespace LoxLang.Stopping

variable {ε σ α β : Type}

theorem bind_ok {p : EStateM ε σ α} {k : α → EStateM ε σ β} {s s' : σ} {a : α} (h : p s = .ok a s') :
    (p >>= k) s = k a s' := by
  simp only [bind, EStateM.bind, h]

theorem bind_error {p : EStateM ε σ α} {k : α → EStateM ε σ β} {s s' : σ} {e : ε}
    (h : p s = .error e s') : (p >>= k) s = .error e s' := by
  simp only [bind, EStateM.bind, h]

theorem get_bind (k : σ → EStateM ε σ β) (s : σ) : ((get : EStateM ε σ σ) >>= k) s = k s s := rfl

theorem modify_bind (f : σ → σ) (k : Unit → EStateM ε σ β) (s : σ) :
    ((modify f : EStateM ε σ Unit) >>= k) s = k () (f s) := rfl

theorem modify_apply (f : σ → σ) (s : σ) : (modify f : EStateM ε σ Unit) s = .ok () (f s) := rfl

theorem pure_bind (a : α) (k : α → EStateM ε σ β) (s : σ) :
    ((pure a : EStateM ε σ α) >>= k) s = k a s := rfl

theorem pure_apply (a : α) (s : σ) : (pure a : EStateM ε σ α) s = .ok a s := rfl

theorem throw_apply (e : ε) (s : σ) : (throw e : EStateM ε σ α) s = .error e s := rfl

end LoxLang.Stopping

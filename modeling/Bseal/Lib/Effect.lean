import Mathlib.Logic.Basic

/-! Stateful computations that can throw and keep the state they had reached when
they did. `exec` runs one; a rule for each combinator says what a run does. -/

abbrev Effect (ε σ : Type) := ExceptT ε (StateM σ)

namespace Effect
variable {ε ε' σ α β : Type}

/-- The outcome and the final state, which is there after a throw too. -/
def exec (x : Effect ε σ α) (s : σ) : Except ε α × σ := StateT.run (ExceptT.run x) s

@[simp] theorem exec_pure (a : α) (s : σ) : exec (pure a : Effect ε σ α) s = (.ok a, s) := rfl

theorem exec_bind (x : Effect ε σ α) (f : α → Effect ε σ β) (s : σ) :
    exec (x >>= f) s = match exec x s with
      | (.ok a, t) => exec (f a) t
      | (.error e, t) => (.error e, t) := by
  unfold exec
  rw [ExceptT.run_bind, StateT.run_bind]
  rcases h : StateT.run (ExceptT.run x) s with ⟨a | a, t⟩ <;> rfl

theorem exec_bind_of_ok {x : Effect ε σ α} {f : α → Effect ε σ β} {s t : σ} {a : α}
    (h : exec x s = (.ok a, t)) : exec (x >>= f) s = exec (f a) t := by
  rw [exec_bind, h]

theorem exec_bind_ok (x : Effect ε σ α) (f : α → Effect ε σ β) (s u : σ) (b : β) :
    exec (x >>= f) s = (.ok b, u) ↔
      ∃ a t, exec x s = (.ok a, t) ∧ exec (f a) t = (.ok b, u) := by
  rw [exec_bind]
  rcases h : exec x s with ⟨e | a, t⟩
  · simp
  · constructor
    · intro rest
      exact ⟨a, t, rfl, rest⟩
    · rintro ⟨_, _, same, rest⟩
      cases same
      exact rest

@[simp] theorem exec_get (s : σ) : exec (get : Effect ε σ σ) s = (.ok s, s) := rfl

@[simp] theorem exec_set (s t : σ) : exec (set t : Effect ε σ PUnit) s = (.ok ⟨⟩, t) := rfl

@[simp] theorem exec_modify (f : σ → σ) (s : σ) :
    exec (modify f : Effect ε σ PUnit) s = (.ok ⟨⟩, f s) := rfl

def throwIf (c : Prop) [Decidable c] (e : ε) : Effect ε σ Unit :=
  if c then throw e else pure ()

theorem exec_throwIf (c : Prop) [Decidable c] (e : ε) (s : σ) :
    exec (throwIf c e : Effect ε σ Unit) s = (if c then .error e else .ok (), s) := by
  unfold throwIf
  split <;> rfl

theorem exec_throwIf_bind (c : Prop) [Decidable c] (e : ε) (f : Unit → Effect ε σ α) (s : σ) :
    exec (throwIf c e >>= f) s = if c then (.error e, s) else exec (f ()) s := by
  rw [exec_bind, exec_throwIf]
  by_cases hc : c
  · rw [if_pos hc, if_pos hc]
  · rw [if_neg hc, if_neg hc]

def lift (r : Except ε α) : Effect ε σ α :=
  match r with
  | .ok a => pure a
  | .error e => throw e

theorem exec_lift (r : Except ε α) (s : σ) : exec (lift r : Effect ε σ α) s = (r, s) := by
  cases r <;> rfl

/-- A call of something outside, noted in the order the calls are made. -/
def noted {ρ : Type} (answer : ρ → Except ε α) (call : ρ) : Effect ε (List ρ) α := do
  modify (· ++ [call])
  lift (answer call)

theorem exec_noted {ρ : Type} (answer : ρ → Except ε α) (call : ρ) (calls : List ρ) :
    exec (noted answer call) calls = (answer call, calls ++ [call]) :=
  (exec_bind_of_ok (exec_modify _ _)).trans (exec_lift _ _)

/-- An operation on a component of the state, with its errors translated. -/
def zoom {τ : Type} (read : σ → τ) (write : τ → σ → σ) (err : ε' → ε) (x : Effect ε' τ α) :
    Effect ε σ α := do
  let s ← get
  match exec x (read s) with
  | (.ok a, t) => do set (write t s); pure a
  | (.error e, t) => do set (write t s); throw (err e)

theorem exec_zoom {τ : Type} (read : σ → τ) (write : τ → σ → σ) (err : ε' → ε)
    (x : Effect ε' τ α) (s : σ) :
    exec (zoom read write err x) s =
      ((exec x (read s)).1.mapError err, write (exec x (read s)).2 s) := by
  unfold zoom
  rw [exec_bind_of_ok (exec_get s)]
  rcases h : exec x (read s) with ⟨e | a, t⟩
  · rfl
  · rfl

theorem exec_get_bind (f : σ → Effect ε σ α) (s : σ) : exec (get >>= f) s = exec (f s) s :=
  exec_bind_of_ok (exec_get s)

theorem exec_throwIf_bind_ok (c : Prop) [Decidable c] (e : ε) (f : Unit → Effect ε σ α)
    (s t : σ) (a : α) :
    exec (throwIf c e >>= f) s = (.ok a, t) ↔ ¬c ∧ exec (f ()) s = (.ok a, t) := by
  rw [exec_throwIf_bind]
  by_cases hc : c
  · simp [hc]
  · simp [hc]

theorem exec_throwIf_ok (c : Prop) [Decidable c] (e : ε) (s t : σ) (u : Unit) :
    exec (throwIf c e : Effect ε σ Unit) s = (.ok u, t) ↔ ¬c ∧ s = t := by
  rw [exec_throwIf]
  by_cases hc : c
  · simp [hc]
  · simp [hc]

theorem exec_lift_bind_ok (r : Except ε β) (f : β → Effect ε σ α) (s t : σ) (a : α) :
    exec (lift r >>= f) s = (.ok a, t) ↔ ∃ b, r = .ok b ∧ exec (f b) s = (.ok a, t) := by
  rw [exec_bind, exec_lift]
  cases r with
  | error e => simp
  | ok b => simp

theorem exec_noted_bind_ok {ρ : Type} (answer : ρ → Except ε β) (call : ρ)
    (f : β → Effect ε (List ρ) α) (s t : List ρ) (a : α) :
    exec (noted answer call >>= f) s = (.ok a, t) ↔
      ∃ b, answer call = .ok b ∧ exec (f b) (s ++ [call]) = (.ok a, t) := by
  rw [exec_bind, exec_noted]
  cases answer call with
  | error e => simp
  | ok b => simp

theorem exec_modify_ok (f : σ → σ) (s t : σ) (u : PUnit) :
    exec (modify f : Effect ε σ PUnit) s = (.ok u, t) ↔ f s = t := by
  simp

theorem exec_pure_ok (a b : α) (s t : σ) :
    exec (pure a : Effect ε σ α) s = (.ok b, t) ↔ a = b ∧ s = t := by
  simp

theorem exec_zoom_ok {τ : Type} (read : σ → τ) (write : τ → σ → σ) (err : ε' → ε)
    (x : Effect ε' τ α) (s t : σ) (a : α) :
    exec (zoom read write err x) s = (.ok a, t) ↔
      ∃ u, exec x (read s) = (.ok a, u) ∧ write u s = t := by
  rw [exec_zoom]
  rcases h : exec x (read s) with ⟨e | b, u⟩
  · have mapped : Except.mapError err (.error e : Except ε' α) = .error (err e) := rfl
    simp [mapped]
  · have mapped : Except.mapError err (.ok b : Except ε' α) = .ok b := rfl
    simp [mapped, Prod.ext_iff, and_assoc]

theorem exec_zoom_bind_ok {τ : Type} (read : σ → τ) (write : τ → σ → σ) (err : ε' → ε)
    (x : Effect ε' τ β) (f : β → Effect ε σ α) (s t : σ) (a : α) :
    exec (zoom read write err x >>= f) s = (.ok a, t) ↔
      ∃ b u, exec x (read s) = (.ok b, u) ∧ exec (f b) (write u s) = (.ok a, t) := by
  rw [exec_bind_ok]
  constructor
  · rintro ⟨b, _, zoomed, rest⟩
    obtain ⟨u, ran, rfl⟩ := (exec_zoom_ok _ _ _ _ _ _ _).mp zoomed
    exact ⟨b, u, ran, rest⟩
  · rintro ⟨b, u, ran, rest⟩
    exact ⟨b, _, (exec_zoom_ok _ _ _ _ _ _ _).mpr ⟨u, ran, rfl⟩, rest⟩

/-- Run from `s`, the computation returns with `post` or throws with `fail`. -/
def Ends (x : Effect ε σ α) (s : σ) (post : α → σ → Prop) (fail : ε → σ → Prop) : Prop :=
  match exec x s with
  | (.ok a, t) => post a t
  | (.error e, t) => fail e t

section Ends
variable {post post' : α → σ → Prop} {fail fail' : ε → σ → Prop}

theorem ends_pure (a : α) (s : σ) : Ends (pure a : Effect ε σ α) s post fail ↔ post a s := Iff.rfl

theorem ends_throw (e : ε) (s : σ) : Ends (throw e : Effect ε σ α) s post fail ↔ fail e s := Iff.rfl

theorem ends_bind (x : Effect ε σ β) (f : β → Effect ε σ α) (s : σ) :
    Ends (x >>= f) s post fail ↔ Ends x s (fun b t => Ends (f b) t post fail) fail := by
  unfold Ends
  rw [exec_bind]
  rcases exec x s with ⟨e | b, t⟩
  · exact Iff.rfl
  · exact Iff.rfl

theorem ends_get_bind (f : σ → Effect ε σ α) (s : σ) :
    Ends (get >>= f) s post fail ↔ Ends (f s) s post fail := ends_bind get f s

theorem ends_set (s t : σ) (post : PUnit → σ → Prop) :
    Ends (set t : Effect ε σ PUnit) s post fail ↔ post ⟨⟩ t := Iff.rfl

theorem ends_modify (g : σ → σ) (s : σ) (post : PUnit → σ → Prop) :
    Ends (modify g : Effect ε σ PUnit) s post fail ↔ post ⟨⟩ (g s) := Iff.rfl

theorem ends_modify_bind (g : σ → σ) (f : PUnit → Effect ε σ α) (s : σ) :
    Ends (modify g >>= f) s post fail ↔ Ends (f ⟨⟩) (g s) post fail := ends_bind _ f s

theorem ends_throwIf_bind (c : Prop) [Decidable c] (e : ε) (f : Unit → Effect ε σ α) (s : σ) :
    Ends (throwIf c e >>= f) s post fail ↔ if c then fail e s else Ends (f ()) s post fail := by
  unfold Ends
  rw [exec_throwIf_bind]
  by_cases hc : c
  · rw [if_pos hc, if_pos hc]
  · rw [if_neg hc, if_neg hc]

theorem ends_throwIf (c : Prop) [Decidable c] (e : ε) (s : σ) (post : Unit → σ → Prop) :
    Ends (throwIf c e : Effect ε σ Unit) s post fail ↔ if c then fail e s else post () s := by
  unfold Ends
  rw [exec_throwIf]
  by_cases hc : c
  · rw [if_pos hc, if_pos hc]
  · rw [if_neg hc, if_neg hc]

theorem ends_lift_bind_of_ok {r : Except ε β} {b : β} (f : β → Effect ε σ α) (s : σ)
    (ok : r = .ok b) : Ends (lift r >>= f) s post fail ↔ Ends (f b) s post fail := by
  rw [ok]
  exact ends_bind _ f s

theorem ends_lift_bind (r : Except ε β) (f : β → Effect ε σ α) (s : σ) :
    Ends (lift r >>= f) s post fail ↔
      (∀ b, r = .ok b → Ends (f b) s post fail) ∧ ∀ e, r = .error e → fail e s := by
  rw [ends_bind, Ends, exec_lift]
  cases r with
  | error e => simp
  | ok b => simp

theorem ends_zoom {τ : Type} (read : σ → τ) (write : τ → σ → σ) (err : ε' → ε)
    (x : Effect ε' τ α) (s : σ) :
    Ends (zoom read write err x) s post fail ↔
      Ends x (read s) (fun a t => post a (write t s)) (fun e t => fail (err e) (write t s)) := by
  unfold Ends
  rw [exec_zoom]
  rcases exec x (read s) with ⟨e | a, t⟩
  · exact Iff.rfl
  · exact Iff.rfl

theorem ends_set_bind (f : PUnit → Effect ε σ α) (s t : σ) :
    Ends (set t >>= f) s post fail ↔ Ends (f ⟨⟩) t post fail := ends_bind _ f s

theorem Ends.mono {x : Effect ε σ α} {s : σ} (ends : Ends x s post fail)
    (ok : ∀ a t, post a t → post' a t) (err : ∀ e t, fail e t → fail' e t) :
    Ends x s post' fail' := by
  unfold Ends at ends ⊢
  rcases h : exec x s with ⟨e | a, t⟩
  · rw [h] at ends
    exact err e t ends
  · rw [h] at ends
    exact ok a t ends

theorem Ends.of_all {x : Effect ε σ α} {s : σ} (ok : ∀ a t, post a t) (err : ∀ e t, fail e t) :
    Ends x s post fail := by
  unfold Ends
  rcases exec x s with ⟨e | a, t⟩
  · exact err e t
  · exact ok a t

theorem Ends.and {x : Effect ε σ α} {s : σ} (first : Ends x s post fail)
    (second : Ends x s post' fail') :
    Ends x s (fun a t => post a t ∧ post' a t) (fun e t => fail e t ∧ fail' e t) := by
  unfold Ends at first second ⊢
  rcases h : exec x s with ⟨e | a, t⟩
  · rw [h] at first second
    exact ⟨first, second⟩
  · rw [h] at first second
    exact ⟨first, second⟩

theorem Ends.bind {x : Effect ε σ β} {f : β → Effect ε σ α} {s : σ} {mid : β → σ → Prop}
    (first : Ends x s mid fail) (rest : ∀ b t, mid b t → Ends (f b) t post fail) :
    Ends (x >>= f) s post fail :=
  (ends_bind x f s).mpr (first.mono rest fun _ _ => id)

theorem Ends.bind_returns {x : Effect ε σ β} {f : β → Effect ε σ α} {s : σ}
    {mid : β → σ → Prop} (first : Ends x s mid fun _ _ => False)
    (rest : ∀ b t, mid b t → Ends (f b) t post fail) : Ends (x >>= f) s post fail :=
  (ends_bind x f s).mpr (first.mono rest fun _ _ => False.elim)

theorem Ends.throwIf_bind {c : Prop} [Decidable c] {e : ε} {f : Unit → Effect ε σ α} {s : σ}
    (thrown : fail e s) (rest : ¬c → Ends (f ()) s post fail) :
    Ends (throwIf c e >>= f) s post fail := by
  rw [ends_throwIf_bind]
  split
  · exact thrown
  · next passed => exact rest passed

theorem Ends.lift_bind {r : Except ε β} {f : β → Effect ε σ α} {s : σ}
    (thrown : ∀ e, fail e s) (rest : ∀ b, r = .ok b → Ends (f b) s post fail) :
    Ends (lift r >>= f) s post fail :=
  (ends_lift_bind r f s).mpr ⟨rest, fun e _ => thrown e⟩

theorem Ends.of_ran {x : Effect ε σ α} {s t : σ} {a : α} (ran : exec x s = (.ok a, t))
    (there : post a t) : Ends x s post fail := by
  unfold Ends
  rw [ran]
  exact there

theorem Ends.of_ok {x : Effect ε σ α} {s t : σ} {a : α} (ends : Ends x s post fail)
    (ran : exec x s = (.ok a, t)) : post a t := by
  unfold Ends at ends
  rwa [ran] at ends

theorem Ends.of_error {x : Effect ε σ α} {s t : σ} {e : ε} (ends : Ends x s post fail)
    (ran : exec x s = (.error e, t)) : fail e t := by
  unfold Ends at ends
  rwa [ran] at ends

theorem Ends.exists_ran {x : Effect ε σ α} {s : σ} (ends : Ends x s post fun _ _ => False) :
    ∃ a t, exec x s = (.ok a, t) ∧ post a t := by
  rcases ran : exec x s with ⟨e | a, t⟩
  · exact (ends.of_error ran).elim
  · exact ⟨a, t, rfl, ends.of_ok ran⟩

theorem Ends.returns {x : Effect ε σ α} {s : σ} (ends : Ends x s post fun _ _ => False) :
    ∃ a, post a (exec x s).2 := by
  unfold Ends at ends
  rcases ran : exec x s with ⟨e | a, t⟩
  · rw [ran] at ends
    exact ends.elim
  · rw [ran] at ends
    exact ⟨a, ends⟩

/-- What holds of the final state whether the run returns or throws. -/
theorem Ends.final {x : Effect ε σ α} {s : σ} {always : σ → Prop}
    (ends : Ends x s (fun _ t => always t) (fun _ t => always t)) : always (exec x s).2 := by
  unfold Ends at ends
  rcases ran : exec x s with ⟨e | a, t⟩
  · rwa [ran] at ends
  · rwa [ran] at ends

end Ends

/-- Whether the run returns or throws, `always` holds where it ends. -/
def Keeps (always : σ → Prop) (x : Effect ε σ α) (s : σ) : Prop :=
  Ends x s (fun _ t => always t) (fun _ t => always t)

section Keeps
variable {always : σ → Prop}

theorem Keeps.of_pure {s : σ} (a : α) (here : always s) :
    Keeps always (pure a : Effect ε σ α) s := here

theorem Keeps.of_throw {s : σ} (e : ε) (here : always s) :
    Keeps always (throw e : Effect ε σ α) s := here

theorem Keeps.of_set (s : σ) {t : σ} (there : always t) :
    Keeps always (set t : Effect ε σ PUnit) s := there

theorem Keeps.of_modify {s : σ} {g : σ → σ} (there : always (g s)) :
    Keeps always (modify g : Effect ε σ PUnit) s := there

theorem Keeps.bind {x : Effect ε σ β} {f : β → Effect ε σ α} {s : σ} (first : Keeps always x s)
    (rest : ∀ b t, always t → Keeps always (f b) t) : Keeps always (x >>= f) s :=
  Ends.bind first rest

theorem Keeps.get_bind {f : σ → Effect ε σ α} {s : σ} (rest : Keeps always (f s) s) :
    Keeps always (get >>= f) s := (ends_get_bind f s).mpr rest

theorem Keeps.set_bind {f : PUnit → Effect ε σ α} (s : σ) {t : σ}
    (rest : Keeps always (f ⟨⟩) t) : Keeps always (set t >>= f) s := (ends_set_bind f s t).mpr rest

theorem Keeps.modify_bind {f : PUnit → Effect ε σ α} {s : σ} {g : σ → σ}
    (rest : Keeps always (f ⟨⟩) (g s)) : Keeps always (modify g >>= f) s :=
  (ends_modify_bind g f s).mpr rest

theorem Keeps.of_throwIf {c : Prop} [Decidable c] {e : ε} {s : σ} (here : always s) :
    Keeps always (throwIf c e : Effect ε σ Unit) s := by
  unfold Keeps
  rw [ends_throwIf]
  split <;> exact here

theorem Keeps.throwIf_bind {c : Prop} [Decidable c] {e : ε} {f : Unit → Effect ε σ α} {s : σ}
    (here : always s) (rest : ¬c → Keeps always (f ()) s) :
    Keeps always (throwIf c e >>= f) s := Ends.throwIf_bind here rest

theorem Keeps.lift_bind {r : Except ε β} {f : β → Effect ε σ α} {s : σ} (here : always s)
    (rest : ∀ b, r = .ok b → Keeps always (f b) s) : Keeps always (lift r >>= f) s :=
  Ends.lift_bind (fun _ => here) rest

theorem Keeps.of_zoom {τ : Type} {read : σ → τ} {write : τ → σ → σ} {err : ε' → ε}
    {x : Effect ε' τ α} {s : σ} (part : Keeps (fun t => always (write t s)) x (read s)) :
    Keeps always (zoom read write err x) s :=
  (ends_zoom read write err x s).mpr part

theorem Keeps.mono {always' : σ → Prop} {x : Effect ε σ α} {s : σ} (keeps : Keeps always x s)
    (weaker : ∀ t, always t → always' t) : Keeps always' x s :=
  Ends.mono keeps (fun _ => weaker) fun _ => weaker

end Keeps
end Effect

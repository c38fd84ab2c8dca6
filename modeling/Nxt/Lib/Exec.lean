import Mathlib

/- Weakest preconditions for state with exceptions, where a throw keeps the state it was
   thrown in. Nothing here names a program: a function is described once by a lemma whose
   conclusion is a `wp`, and callers use it through `wp_mono` without unfolding it. Plain
   `Except` computations are taken apart by `bind_ok`. -/
namespace Nxt.Lib
variable {ε σ α β : Type}

variable {m : Except ε α} {f : α → Except ε β} {b : β} {P : ε → Prop} {r : StateT σ (Except ε) α} {s s' : σ}

theorem bind_ok (h : m >>= f = .ok b) : ∃ a, m = .ok a ∧ f a = .ok b := by
  cases m with
  | error e => cases h
  | ok a => exact ⟨a, rfl, h⟩

theorem bind_ok_iff : m >>= f = .ok b ↔ ∃ a, m = .ok a ∧ f a = .ok b := by
  constructor
  · exact bind_ok
  · rintro ⟨a, rfl, done⟩
    exact done

theorem ok_bind (a : α) (f : α → Except ε β) : (Except.ok a >>= f) = f a := rfl

/-- What a computation can throw. -/
def Fails (m : Except ε α) (P : ε → Prop) : Prop := ∀ e, m = .error e → P e

theorem fails_ok (a : α) : Fails (.ok a) P := by
  intro e never
  cases never

theorem fails_error {e : ε} (holds : P e) : Fails (.error e : Except ε α) P := by
  intro other same
  cases same
  exact holds

theorem fails_bind (first : Fails m P) (next : ∀ a, m = .ok a → Fails (f a) P) : Fails (m >>= f) P := by
  intro e failed
  cases run : m with
  | error other =>
    rw [run] at failed
    cases failed
    exact first _ run
  | ok a =>
    rw [run] at failed
    exact next a run e failed

theorem check_ok_iff {m : Except ε Unit} {f : Unit → Except ε β} : m >>= f = .ok b ↔ m = .ok () ∧ f () = .ok b := by
  rw [bind_ok_iff]
  exact ⟨fun ⟨_, done⟩ => done, fun done => ⟨(), done⟩⟩

theorem step_ok {a : α} (first : r s = .ok (a, s')) (f : α → StateT σ (Except ε) β) : (r >>= f) s = f a s' := by
  have step : (r >>= f) s = (r s >>= fun p => f p.1 p.2) := rfl
  rw [step, first]
  rfl

theorem step_error {e : ε} (first : r s = .error e) (f : α → StateT σ (Except ε) β) : (r >>= f) s = .error e := by
  have step : (r >>= f) s = (r s >>= fun p => f p.1 p.2) := rfl
  rw [step, first]
  rfl

theorem step_inv {f : α → StateT σ (Except ε) β}
    (done : (r >>= f) s = .ok (b, s')) : ∃ a middle, r s = .ok (a, middle) ∧ f a middle = .ok (b, s') := by
  have step : (r >>= f) s = (r s >>= fun p => f p.1 p.2) := rfl
  rw [step] at done
  obtain ⟨⟨a, middle⟩, first, second⟩ := bind_ok done
  exact ⟨a, middle, first, second⟩

def wp (m : EStateM ε σ α) (Q : α → σ → Prop) (E : ε → σ → Prop) (s : σ) : Prop :=
  match m s with
  | .ok a s' => Q a s'
  | .error e s' => E e s'

theorem wp_mono {m : EStateM ε σ α} {Q Q' : α → σ → Prop} {E E' : ε → σ → Prop}
    (h : wp m Q E s) (ok : ∀ a s', Q a s' → Q' a s') (err : ∀ e s', E e s' → E' e s') : wp m Q' E' s := by
  unfold wp at *
  cases run : m s with
  | ok a s' => rw [run] at h; exact ok a s' h
  | error e s' => rw [run] at h; exact err e s' h

@[simp] theorem wp_pure (a : α) (Q : α → σ → Prop) (E : ε → σ → Prop) (s : σ) :
    wp (pure a : EStateM ε σ α) Q E s ↔ Q a s := Iff.rfl

@[simp] theorem wp_bind (m : EStateM ε σ α) (f : α → EStateM ε σ β) (Q : β → σ → Prop)
    (E : ε → σ → Prop) (s : σ) : wp (m >>= f) Q E s ↔ wp m (fun a s' => wp (f a) Q E s') E s := by
  simp only [wp, bind, EStateM.bind]
  cases m s <;> rfl

@[simp] theorem wp_get (Q : σ → σ → Prop) (E : ε → σ → Prop) (s : σ) :
    wp (get : EStateM ε σ σ) Q E s ↔ Q s s := Iff.rfl

@[simp] theorem wp_set (s' : σ) (Q : PUnit → σ → Prop) (E : ε → σ → Prop) (s : σ) :
    wp (set s' : EStateM ε σ PUnit) Q E s ↔ Q ⟨⟩ s' := Iff.rfl

@[simp] theorem wp_modify (f : σ → σ) (Q : PUnit → σ → Prop) (E : ε → σ → Prop) (s : σ) :
    wp (modify f : EStateM ε σ PUnit) Q E s ↔ Q ⟨⟩ (f s) := Iff.rfl

@[simp] theorem wp_throw (e : ε) (Q : α → σ → Prop) (E : ε → σ → Prop) (s : σ) :
    wp (throw e : EStateM ε σ α) Q E s ↔ E e s := Iff.rfl

@[simp] theorem wp_ite (c : Prop) [Decidable c] (m n : EStateM ε σ α) (Q : α → σ → Prop)
    (E : ε → σ → Prop) (s : σ) : wp (if c then m else n) Q E s ↔ (c → wp m Q E s) ∧ (¬ c → wp n Q E s) := by
  split <;> simp_all

theorem wp_run {m : EStateM ε σ α} {Q : α → σ → Prop} {E : ε → σ → Prop}
    (h : wp m Q E s) (silent : ∀ e s', ¬ E e s') : ∃ a s', m s = .ok a s' ∧ Q a s' := by
  unfold wp at h
  cases run : m s with
  | ok a s' => rw [run] at h; exact ⟨a, s', rfl, h⟩
  | error e s' => rw [run] at h; exact absurd h (silent e s')

theorem wp_of_ok {m : EStateM ε σ α} {a : α} (run : m s = .ok a s')
    (Q : α → σ → Prop) (E : ε → σ → Prop) : wp m Q E s ↔ Q a s' := by
  simp [wp, run]

end Nxt.Lib

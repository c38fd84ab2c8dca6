import Mathlib

/- Computations that leave sights behind: what a run is watched for. `Meets safe x post` says that
   every sight of `x` is safe and that its result is as `post` says; its rules follow the shape of a
   `do` block. -/
namespace Nxt.Lib
variable {ε α β σ : Type}

abbrev Watched (ε α : Type) := Writer (List ε) α

def sight (e : ε) : Watched ε Unit := WriterT.mk ((), [e])

def Meets (safe : ε → Prop) (x : Watched ε α) (post : α → Prop) : Prop :=
  (∀ e ∈ x.run.2, safe e) ∧ post x.run.1

section Rules
variable {safe : ε → Prop} {x : Watched ε α} {f : α → Watched ε β} {a : α}
variable {post p : α → Prop} {after : β → Prop}

theorem meets_pure (h : post a) : Meets safe (pure a : Watched ε α) post :=
  ⟨fun _ held => absurd held List.not_mem_nil, h⟩

theorem meets_sight {e : ε} {post : Unit → Prop} (seen : safe e) (h : post ()) : Meets safe (sight e) post := by
  refine ⟨fun e' held => ?_, h⟩
  rw [List.mem_singleton.mp held]
  exact seen

theorem meets_bind (first : Meets safe x p) (rest : ∀ a, p a → Meets safe (f a) after) :
    Meets safe (x >>= f) after := by
  obtain ⟨seen, later⟩ := rest _ first.2
  refine ⟨fun e held => ?_, later⟩
  rcases List.mem_append.mp held with before | behind
  · exact first.1 e before
  · exact seen e behind

theorem Meets.weaken (met : Meets safe x p) (enough : ∀ a, p a → post a) : Meets safe x post :=
  ⟨met.1, enough _ met.2⟩

end Rules

def times (step : σ → Watched ε σ) : Nat → σ → Watched ε σ
  | 0, s => pure s
  | n + 1, s => do times step n (← step s)

theorem meets_times {safe : ε → Prop} {step : σ → Watched ε σ} {inv : Nat → σ → Prop} {s : σ}
    (n k : Nat) (start : inv k s) (round : ∀ k s, inv k s → Meets safe (step s) (inv (k + 1))) :
    Meets safe (times step n s) (inv (k + n)) := by
  induction n generalizing k s with
  | zero => exact meets_pure start
  | succ n ih =>
    refine meets_bind (round k s start) fun s' moved => ?_
    rw [show k + (n + 1) = k + 1 + n by omega]
    exact ih (k + 1) moved

/-- A step done for the numbers below a bound, the highest first. -/
def downward (step : Nat → σ → Watched ε σ) : Nat → σ → Watched ε σ
  | 0, s => pure s
  | t + 1, s => do downward step t (← step t s)

theorem meets_downward {safe : ε → Prop} {step : Nat → σ → Watched ε σ} {inv : Nat → σ → Prop} {s : σ}
    (n : Nat) (start : inv n s) (round : ∀ t s, t < n → inv (t + 1) s → Meets safe (step t s) (inv t)) :
    Meets safe (downward step n s) (inv 0) := by
  induction n generalizing s with
  | zero => exact meets_pure start
  | succ n ih =>
    refine meets_bind (round n s (Nat.lt_succ_self n) start) fun s' moved => ?_
    exact ih moved fun t s below => round t s (Nat.lt_succ_of_lt below)

end Nxt.Lib

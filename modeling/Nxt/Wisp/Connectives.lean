import Nxt.Lib.Exec
import Nxt.Wisp.Word

/- The macros AND and OR (base.wisp): what they expand to, and what the expansion does to
   operands with effects. An operand is any form, so any computation; the evaluator adds the
   operand to a log when it starts one. -/
namespace Nxt.Wisp

/-- The forms the two macros build, over operands they do not look into. -/
inductive Expansion (ι : Type) where
  | true
  | nil
  | operand (i : ι)
  | ifForm (test yes no : Expansion ι)

section Macros
variable {ι α : Type}

def reduceLoop (f : α → α → α) (x : α) : List α → α
  | [] => x
  | [y] => f x y
  | y :: z :: rest => reduceLoop f (f x y) (z :: rest)

def reduce (f : α → α → α) (xs : List α) (init : α) : α := reduceLoop f init xs

def and2 (x y : Expansion ι) : Expansion ι := .ifForm x y x

def or2 (x y : Expansion ι) : Expansion ι := .ifForm x x y

def andMacro (xs : List (Expansion ι)) : Expansion ι := reduce and2 xs .true

def orMacro (xs : List (Expansion ι)) : Expansion ι := reduce or2 xs .nil

end Macros

/-- A computation over the machine's state and the log of the operands that were started. -/
abbrev Logged (ε σ ι : Type) := EStateM ε (σ × List ι)

section Evaluate
variable {ε σ ι : Type} (run : ι → EStateM ε σ Word)

def start (i : ι) : Logged ε σ ι Word := fun s =>
  match run i s.1 with
  | .ok v machine => .ok v (machine, s.2 ++ [i])
  | .error e machine => .error e (machine, s.2 ++ [i])

def evaluate : Expansion ι → Logged ε σ ι Word
  | .true => pure t
  | .nil => pure nil
  | .operand i => start run i
  | .ifForm test yes no => do
      let v ← evaluate test
      if v = Nxt.Wisp.nil then evaluate no else evaluate yes

/-- What is asked of both: the operands from left to right, each once, up to one that decides,
    whose value is the result. -/
def inOrder (decides : Word → Bool) (empty : Word) : List ι → Logged ε σ ι Word
  | [] => pure empty
  | [i] => start run i
  | i :: j :: rest => do
      let v ← start run i
      if decides v then pure v else inOrder decides empty (j :: rest)

/-- No operand but the last decides. -/
def Passes (decides : Word → Bool) : List ι → σ → Prop
  | i :: j :: rest, s =>
      match run i s with
      | .ok v s' => decides v = false ∧ Passes decides (j :: rest) s'
      | .error _ _ => True
  | _, _ => True

end Evaluate

section Reduction
variable {ε σ ι : Type} {run : ι → EStateM ε σ Word}

/-- The log a computation leaves, whether or not it comes back. -/
def leftLog {α : Type} : EStateM.Result ε (σ × List ι) α → List ι
  | .ok _ s => s.2
  | .error _ s => s.2

theorem start_log (i : ι) (s : σ × List ι) : leftLog (start run i s) = s.2 ++ [i] := by
  unfold start
  cases run i s.1 <;> rfl

theorem evaluate_if (test yes no : Expansion ι) (s : σ × List ι) :
    evaluate run (.ifForm test yes no) s =
      match evaluate run test s with
      | .ok v s' => if v = nil then evaluate run no s' else evaluate run yes s'
      | .error e s' => .error e s' := by
  change EStateM.bind _ _ _ = _
  unfold EStateM.bind
  cases evaluate run test s with
  | ok v s' =>
    simp only
    split <;> rfl
  | error e s' => rfl

theorem evaluate_longer (form : Expansion ι) (s : σ × List ι) :
    s.2.length ≤ (leftLog (evaluate run form s)).length := by
  induction form generalizing s with
  | true => exact le_rfl
  | nil => exact le_rfl
  | operand i =>
    rw [evaluate, start_log, List.length_append]
    exact Nat.le_add_right _ _
  | ifForm test yes no ihTest ihYes ihNo =>
    have first := ihTest s
    rw [evaluate_if]
    cases done : evaluate run test s with
    | error e s' =>
      rw [done] at first
      exact first
    | ok v s' =>
      rw [done] at first
      change _ ≤ (leftLog (if v = nil then evaluate run no s' else evaluate run yes s')).length
      split
      · exact Nat.le_trans first (ihNo s')
      · exact Nat.le_trans first (ihYes s')

/-- Both two-operand forms test the first operand and, when it decides, evaluate it again. -/
def Rechecks (run : ι → EStateM ε σ Word) (decides : Word → Bool)
    (two : Expansion ι → Expansion ι → Expansion ι) : Prop :=
  ∀ x y s, evaluate run (two x y) s =
    match evaluate run x s with
    | .ok v s' => if decides v = true then evaluate run x s' else evaluate run y s'
    | .error e s' => .error e s'

theorem and2_rechecks : Rechecks run (fun v => decide (v = nil)) and2 := by
  intro x y s
  rw [and2, evaluate_if]
  cases evaluate run x s with
  | ok v s' => simp only [decide_eq_true_eq]
  | error e s' => rfl

theorem or2_rechecks : Rechecks run (fun v => decide (v ≠ nil)) or2 := by
  intro x y s
  rw [or2, evaluate_if]
  cases evaluate run x s with
  | ok v s' => simp only [decide_eq_true_eq, ite_not]
  | error e s' => rfl

section Fold
variable {decides : Word → Bool} {two : Expansion ι → Expansion ι → Expansion ι}
  (rechecks : Rechecks run decides two)
include rechecks

/-- An expansion that starts an operand whenever it is evaluated, or one that never decides. -/
def Starts (run : ι → EStateM ε σ Word) (form : Expansion ι) : Prop :=
  ∀ s, s.2.length < (leftLog (evaluate run form s)).length

def NeverDecides (run : ι → EStateM ε σ Word) (decides : Word → Bool) (form : Expansion ι) : Prop :=
  ∀ s, ∃ v s', evaluate run form s = .ok v s' ∧ decides v = false

variable {acc : Expansion ι} {s s' : σ × List ι} {v : Word}

theorem two_starts (i : ι) (kind : Starts run acc ∨ NeverDecides run decides acc) :
    Starts run (two acc (.operand i)) := by
  intro s
  have operand (s : σ × List ι) :
      s.2.length < (leftLog (evaluate run (.operand i) s)).length := by
    rw [evaluate, start_log, List.length_append]
    exact Nat.lt_succ_self _
  have before : s.2.length ≤ (leftLog (evaluate run acc s)).length := evaluate_longer acc s
  rw [rechecks]
  rcases kind with starts | never
  · have first := starts s
    cases done : evaluate run acc s with
    | error e s' =>
      rw [done] at first
      exact first
    | ok v s' =>
      rw [done] at first
      change _ < (leftLog (if decides v = true then _ else _)).length
      split
      · exact Nat.lt_trans first (starts s')
      · exact Nat.lt_trans first (operand s')
  · obtain ⟨v, s', done, passed⟩ := never s
    rw [done] at before ⊢
    change _ < (leftLog (if decides v = true then _ else _)).length
    rw [if_neg (by rw [passed]; decide)]
    exact Nat.lt_of_le_of_lt before (operand s')

theorem reduceLoop_longer (acc : Expansion ι) (rest : List ι) (s : σ × List ι) :
    (leftLog (evaluate run acc s)).length ≤
        (leftLog (evaluate run (reduceLoop two acc (rest.map .operand)) s)).length := by
  have step (acc : Expansion ι) (j : ι) : (leftLog (evaluate run acc s)).length ≤
      (leftLog (evaluate run (two acc (.operand j)) s)).length := by
    rw [rechecks]
    cases evaluate run acc s with
    | error e s' => exact le_rfl
    | ok v s' =>
      change s'.2.length ≤ (leftLog (if decides v = true then _ else _)).length
      split
      · exact evaluate_longer acc s'
      · exact evaluate_longer _ s'
  induction rest generalizing acc with
  | nil => exact le_rfl
  | cons j rest ih =>
    cases rest with
    | nil => exact step acc j
    | cons k rest => exact Nat.le_trans (step acc j) (ih (two acc (.operand j)))

theorem reduceLoop_error (rest : List ι) {e : ε} (failed : evaluate run acc s = .error e s') :
    evaluate run (reduceLoop two acc (rest.map .operand)) s = .error e s' := by
  induction rest generalizing acc with
  | nil => exact failed
  | cons j rest ih =>
    have next : evaluate run (two acc (.operand j)) s = .error e s' := by
      rw [rechecks, failed]
    cases rest with
    | nil => exact next
    | cons k rest => exact ih next

theorem reduceLoop_again (starts : Starts run acc) (j : ι) (rest : List ι)
    (done : evaluate run acc s = .ok v s') (decided : decides v = true) : s'.2.length <
      (leftLog (evaluate run (reduceLoop two acc ((j :: rest).map .operand)) s)).length := by
  have again : evaluate run (two acc (.operand j)) s = evaluate run acc s' := by
    rw [rechecks, done]
    exact if_pos decided
  have first : s'.2.length < (leftLog (evaluate run (two acc (.operand j)) s)).length := by
    rw [again]
    exact starts s'
  cases rest with
  | nil => exact first
  | cons k rest =>
    exact Nat.lt_of_lt_of_le first (reduceLoop_longer rechecks _ (k :: rest) s)

theorem reduceLoop_inOrder (empty : Word) (i : ι) (rest : List ι) (kind : Starts run acc ∨ NeverDecides run decides acc)
    (done : evaluate run acc s = .ok v s') (passed : decides v = false) :
    evaluate run (reduceLoop two acc ((i :: rest).map .operand)) s =
      inOrder run decides empty (i :: rest) s' ↔ Passes run decides (i :: rest) s'.1 := by
  induction rest generalizing acc i s s' v with
  | nil =>
    have next : evaluate run (two acc (.operand i)) s = start run i s' := by
      rw [rechecks, done]
      exact if_neg (by rw [passed]; decide)
    exact iff_of_true next trivial
  | cons j rest ih =>
    have next : evaluate run (two acc (.operand i)) s = start run i s' := by
      rw [rechecks, done]
      exact if_neg (by rw [passed]; decide)
    have starts := two_starts rechecks i kind
    have order : inOrder run decides empty (i :: j :: rest) s' =
        match start run i s' with
        | .ok w s'' => if decides w then .ok w s'' else inOrder run decides empty (j :: rest) s''
        | .error e s'' => .error e s'' := by
      change EStateM.bind _ _ _ = _
      unfold EStateM.bind
      cases start run i s' with
      | ok w s'' =>
        simp only
        split <;> rfl
      | error e s'' => rfl
    rw [Passes, order]
    cases ran : run i s'.1 with
    | error e machine =>
      have begun : start run i s' = .error e (machine, s'.2 ++ [i]) := by rw [start, ran]
      rw [begun] at next ⊢
      exact iff_of_true (reduceLoop_error rechecks (j :: rest) next) trivial
    | ok w machine =>
      have begun : start run i s' = .ok w (machine, s'.2 ++ [i]) := by rw [start, ran]
      rw [begun] at next ⊢
      by_cases decided : decides w = true
      · -- The first operand is started again, and the log shows it.
        have again := reduceLoop_again rechecks starts j rest next decided
        simp only [if_pos decided]
        constructor
        · intro same
          have logs := congrArg leftLog same
          change leftLog (evaluate run (reduceLoop two (two acc (.operand i))
            ((j :: rest).map .operand)) s) = s'.2 ++ [i] at logs
          rw [logs] at again
          exact absurd again (Nat.lt_irrefl _)
        · rintro ⟨clear, _⟩
          rw [decided] at clear
          cases clear
      · have undecided : decides w = false := by simpa using decided
        simp only [undecided, true_and]
        exact ih j (Or.inl starts) next undecided

end Fold

/-- AND and OR evaluate their operands in order, each at most once, up to the one that decides,
    exactly when that is the last one. -/
theorem connective_once (run : ι → EStateM ε σ Word) (xs : List ι) (s : σ × List ι) :
    (evaluate run (andMacro (xs.map .operand)) s = inOrder run (fun v => decide (v = nil)) t xs s ↔
        Passes run (fun v => decide (v = nil)) xs s.1) ∧ (evaluate run (orMacro (xs.map .operand)) s =
      inOrder run (fun v => decide (v ≠ nil)) nil xs s ↔ Passes run (fun v => decide (v ≠ nil)) xs s.1) := by
  cases xs with
  | nil => exact ⟨iff_of_true rfl trivial, iff_of_true rfl trivial⟩
  | cons i rest =>
    constructor
    · exact reduceLoop_inOrder and2_rechecks t i rest
        (Or.inr fun s => ⟨t, s, rfl, by decide⟩) rfl (by decide)
    · exact reduceLoop_inOrder or2_rechecks nil i rest
        (Or.inr fun s => ⟨nil, s, rfl, by decide⟩) rfl (by decide)

end Reduction

/-- `(next!)`, which counts its calls and returns a given value, and a constant after it. -/
def counted (value other : Word) (first : Bool) : EStateM Unit Nat Word :=
  if first then do
    modify (· + 1)
    pure value
  else pure other

/-- In `(and (next!) t)` and `(or (next!) nil)` a deciding first operand is evaluated twice. -/
theorem connective_twice :
    leftLog (evaluate (counted nil t) (andMacro [.operand true, .operand false]) (0, [])) = [true, true] ∧
    leftLog (evaluate (counted t nil) (orMacro [.operand true, .operand false]) (0, [])) = [true, true] ∧
    ¬ (∀ (run : Bool → EStateM Unit Nat Word) (xs : List Bool) (s : Nat × List Bool),
      evaluate run (andMacro (xs.map .operand)) s = inOrder run (fun v => decide (v = nil)) t xs s) ∧
    ¬ (∀ (run : Bool → EStateM Unit Nat Word) (xs : List Bool) (s : Nat × List Bool),
      evaluate run (orMacro (xs.map .operand)) s = inOrder run (fun v => decide (v ≠ nil)) nil xs s) := by
  refine ⟨by decide, by decide, fun claim => ?_, fun claim => ?_⟩
  · have logs := congrArg leftLog (claim (counted nil t) [true, false] (0, []))
    exact absurd logs (by decide)
  · have logs := congrArg leftLog (claim (counted t nil) [true, false] (0, []))
    exact absurd logs (by decide)

end Nxt.Wisp

import Nxt.Wisp.Code
import Nxt.Wisp.Ops
import Nxt.Wisp.Registers

/- Argument binding (eval.cpp, `bind`) and what the compiler assumes of it (compiler.wisp): its
   own parser of parameter lists and the lexical addresses of a function's scope. -/
namespace Nxt.Wisp
open Nxt.Lib List

structure Closure where
  captured : Word
  parameters : Word
  body : Word
  name : Word
  count : Word
  deriving DecidableEq

section Evaluator
variable (known : Known → Word)

def loweredCode (h : Heap) (x : Word) : Bool := (codeRecordOp h x).isSome

/-- A lowered closure keeps its FUNCTION node in the code slot; calls run the function's body. -/
def executableBody (code : Word) : Eval Word := do
  let h := (← get).heap
  match codeRecordOp h code with
  | none => pure code
  | some op =>
      if op ≠ .function then fail .invalidFunction [code]
      else pure ((h.slice .record code).getD 3 nil)

def wrongCount {α : Type} (callee : Word) : Eval α :=
  fail .programError [known .invalidArgumentCount, callee]

/-- The loop over the parameters: how many arguments are used, and the scope so far. -/
def bindLoop (callee parameters : Word) (args : List Word) :
    Nat → Word → Bool → Nat → List Word → Eval (Nat × List Word)
  | 0, _, _, used, scope => pure (used, scope)
  | remaining + 1, cur, optional, used, scope => do
      let h := (← get).heap
      let p := h.get .duo .car cur
      let rest := h.get .duo .cdr cur
      if p = known .ampOptional then
        bindLoop callee parameters args remaining rest true used scope
      else if p = known .ampRest ∨ p = known .ampBody then
        if remaining ≠ 1 then fail .invalidParameters [parameters]
        else do
          let tail := h.get .duo .car rest
          require known tail .sym
          let xs ← listOf (args.drop used)
          pure (args.length, scope ++ [tail, xs])
      else do
        require known p .sym
        if used = args.length ∧ optional = false then wrongCount known callee
        else
          bindLoop callee parameters args remaining rest optional
            (if used < args.length then used + 1 else used) (scope ++ [p, args.getD used nil])

def bindScope (callee : Word) (closure : Closure) (args : List Word) : Eval Unit := do
  let size ← scanCount known closure.parameters
  let (used, scope) ←
    bindLoop known callee closure.parameters args size closure.parameters false 0 []
  if used ≠ args.length then wrongCount known callee
  else do
    let vec ← allocate fun h => h.newv32 scope
    let env ← allocate fun h => h.cons vec closure.captured
    modify fun s => { s with
      env
      heap := s.heap.set (if tagOf callee = .func then .func else .mac) .cnt callee (closure.count + 1) }

def bind (callee : Word) (closure : Closure) (args : List Word) : Eval Unit := do
  bindScope known callee closure args
  enter (← executableBody closure.body)

end Evaluator

section Compiler
variable (h : Heap) (known : Known → Word) (keywords : Word)

def irListLengthLoop : Nat → Word → Word → Nat → Option Nat
  | 0, _, _, _ => none
  | fuel + 1, slow, fast, n =>
      if fast = nil then some n
      else if tagOf fast ≠ .duo then none
      else
        let next := h.get .duo .cdr fast
        if next = nil then some (n + 1)
        else if tagOf next ≠ .duo then none
        else
          let slow := h.get .duo .cdr slow
          let fast := h.get .duo .cdr next
          if slow = fast then none else irListLengthLoop fuel slow fast (n + 2)

def irListLength (xs : Word) : Option Nat := irListLengthLoop h scanFuel xs xs 0

def irName (x : Word) : Prop :=
  tagOf x = .sym ∧ x ≠ nil ∧ x ≠ t ∧ h.get .sym .pkg x ≠ keywords

instance (x : Word) : Decidable (irName h keywords x) := by unfold irName; infer_instance

structure Parsed where
  required : List Word
  optional : List Word
  rest : Option Word
  deriving DecidableEq

def irParseParametersLoop : Nat → Word → Bool → List Word → List Word → Option Parsed
  | 0, _, _, _, _ => none
  | fuel + 1, parameters, isOptional, required, optional =>
      if parameters = nil then some ⟨required.reverse, optional.reverse, none⟩
      else
        let p := h.get .duo .car parameters
        let tail := h.get .duo .cdr parameters
        if p = known .ampOptional then
          irParseParametersLoop fuel tail true required optional
        else if p = known .ampRest ∨ p = known .ampBody then
          if tagOf tail = .duo ∧ h.get .duo .cdr tail = nil ∧
              irName h keywords (h.get .duo .car tail) then
            some ⟨required.reverse, optional.reverse, some (h.get .duo .car tail)⟩
          else none
        else if ¬ irName h keywords p then none
        else if isOptional then
          irParseParametersLoop fuel tail true required (p :: optional)
        else irParseParametersLoop fuel tail false (p :: required) optional

def irParseParameters (parameters : Word) : Option Parsed :=
  match irListLength h parameters with
  | some _ => irParseParametersLoop h known keywords (2 * scanFuel) parameters false [] []
  | none => none

/-- An IR-BINDING, by the name it binds, or the :FRAME marker that ends a runtime scope. -/
inductive ScopeEntry where
  | binding (name : Word)
  | frame
  deriving DecidableEq

def Parsed.names (p : Parsed) : List Word := p.required ++ p.optional ++ p.rest.toList

def Parsed.bindings (p : Parsed) : List ScopeEntry := p.names.map .binding

def irFunctionScope (bindings scope : List ScopeEntry) : List ScopeEntry :=
  bindings ++ .frame :: scope

/-- An IR-REFERENCE, with its address when the binding has a runtime scope, or an IR-LOOKUP. -/
inductive Resolved where
  | reference (depth index : Option Nat)
  | lookup
  deriving DecidableEq

def irResolveLoop (symbol : Word) : List ScopeEntry → Nat → Nat → Resolved
  | [], _, _ => .lookup
  | .frame :: rest, depth, _ => irResolveLoop symbol rest (depth + 1) 0
  | .binding name :: rest, depth, index =>
      if name = symbol then
        if .frame ∈ rest then .reference (some depth) (some index) else .reference none none
      else irResolveLoop symbol rest depth (index + 1)

def irResolve (symbol : Word) (scope : List ScopeEntry) : Resolved := irResolveLoop symbol scope 0 0

end Compiler

section Parser
variable {h : Heap} {known : Known → Word} {keywords : Word}

theorem irListLength_items (fuel : Nat) {slow fast : Word} {n m : Nat}
    (found : irListLengthLoop h fuel slow fast n = some m) : ∃ xs, h.links.Items fast xs := by
  induction fuel generalizing slow fast n with
  | zero => cases found
  | succ fuel ih =>
    simp only [irListLengthLoop] at found
    split at found
    · rename_i last
      exact ⟨[], last⟩
    · split at found
      · cases found
      · rename_i cell
        have first : tagOf fast = .duo := not_not.mp cell
        split at found
        · rename_i last
          exact ⟨[_], first, rfl, last⟩
        · split at found
          · cases found
          · rename_i second
            split at found
            · cases found
            · obtain ⟨xs, items⟩ := ih found
              exact ⟨_ :: _ :: xs, first, rfl, not_not.mp second, rfl, items⟩

end Parser

/-- Names and their values by turns: an argument each while there are any. -/
def paired : List Word → List Word → List Word
  | [], _ => []
  | p :: ps, args => p :: args.headD nil :: paired ps args.tail

/-- What is left of the loop once every name is bound: the rest parameter. -/
def bindRest (args : List Word) (rest : Option Word) (used : Nat) (scope : List Word) : Eval (Nat × List Word) :=
  match rest with
  | none => pure (used, scope)
  | some tail => do
      let xs ← listOf (args.drop used)
      pure (args.length, scope ++ [tail, xs])

section Loop
variable {known : Known → Word} {keywords callee parameters : Word} {args : List Word}
  {s : Registers}

theorem headD_drop (args : List Word) (used : Nat) : (args.drop used).headD nil = args.getD used nil := by
  rw [headD_eq_head?_getD, head?_drop, getD_eq_getElem?_getD]

theorem paired_drop (p : Word) (ps args : List Word) (used : Nat) :
    paired (p :: ps) (args.drop used) = p :: args.getD used nil ::
      paired ps (args.drop (if used < args.length then used + 1 else used)) := by
  rw [paired, headD_drop, tail_drop]
  split
  · rfl
  · rename_i past
    rw [drop_eq_nil_of_le (by omega : args.length ≤ used + 1),
      drop_eq_nil_of_le (by omega : args.length ≤ used)]

variable {α β : Type} {m : Eval α} {f : α → Eval β} {s' : Registers}

theorem eval_ok {a : α} {s : Registers} (run : m s = .ok a s') : (m >>= f) s = f a s' := by
  change EStateM.bind m f s = _
  simp only [EStateM.bind, run]

theorem eval_error {e : Stop} {s : Registers} (run : m s = .error e s') : (m >>= f) s = .error e s' := by
  change EStateM.bind m f s = _
  simp only [EStateM.bind, run]

theorem require_sym {x : Word} (tag : tagOf x = .sym) : require known x .sym s = .ok () s := by
  simp only [require, tag, if_true]
  rfl

section Step
variable {cur : Word} {ps : List Word} {optional : Bool} {used : Nat} {scope : List Word}

theorem bindLoop_cell (remaining : Nat) :
    bindLoop known callee parameters args (remaining + 1) cur optional used scope s =
      (let p := s.heap.get .duo .car cur
       let rest := s.heap.get .duo .cdr cur
       if p = known .ampOptional then
         bindLoop known callee parameters args remaining rest true used scope
       else if p = known .ampRest ∨ p = known .ampBody then
         if remaining ≠ 1 then fail .invalidParameters [parameters]
         else do
           let tail := s.heap.get .duo .car rest
           require known tail .sym
           let xs ← listOf (args.drop used)
           pure (args.length, scope ++ [tail, xs])
       else do
         require known p .sym
         if used = args.length ∧ optional = false then wrongCount known callee
         else
           bindLoop known callee parameters args remaining rest optional
             (if used < args.length then used + 1 else used) (scope ++ [p, args.getD used nil])) s := by
  rfl

end Step

variable (callee parameters) in
/-- A list the compiler's parser accepts, seen by both walks: the names still to come are the
    same, in the same order, and the evaluator refuses exactly too few arguments. -/
theorem bindLoop_parsed (fuel : Nat) {cur : Word} {ps : List Word} {optional : Bool}
    {required optionals : List Word} {parsed : Parsed} {used : Nat} (scope : List Word)
    (items : s.heap.links.Items cur ps)
    (accepted : irParseParametersLoop s.heap known keywords fuel cur optional required optionals =
      some parsed) (within : used ≤ args.length) : ∃ more less, parsed.required = required.reverse ++ more ∧
      parsed.optional = optionals.reverse ++ less ∧ (optional = true → more = []) ∧
      (args.length - used < more.length →
        bindLoop known callee parameters args ps.length cur optional used scope s = wrongCount known callee s) ∧
      (more.length ≤ args.length - used →
        bindLoop known callee parameters args ps.length cur optional used scope s =
          bindRest args parsed.rest (used + min (args.length - used) (more.length + less.length))
            (scope ++ paired (more ++ less) (args.drop used)) s) := by
  induction fuel generalizing cur ps optional required optionals used scope with
  | zero => cases accepted
  | succ fuel ih =>
    simp only [irParseParametersLoop] at accepted
    split at accepted
    · rename_i last
      rw [last] at items
      rw [items_nil items]
      cases accepted
      refine ⟨[], [], by simp, by simp, fun _ => rfl, fun few => absurd few (by simp), fun _ => ?_⟩
      simp [bindLoop, bindRest, paired]
    · rename_i more
      obtain ⟨rest, rfl, _, next⟩ := items_cell items more
      rw [length_cons, bindLoop_cell]
      split at accepted
      · -- &OPTIONAL: no required name comes after it.
        rename_i marker
        simp only [if_pos marker]
        obtain ⟨others, less, first, second, none_left, few, enough⟩ :=
          ih scope next accepted within
        obtain rfl := none_left rfl
        exact ⟨[], less, first, second, fun _ => rfl, few, enough⟩
      · rename_i name
        simp only [if_neg name]
        split at accepted
        · rename_i marker
          simp only [if_pos marker]
          split at accepted
          · rename_i final
            obtain ⟨pair, last, symbol⟩ := final
            have some_left : s.heap.get .duo .cdr cur ≠ nil := by
              intro empty
              rw [empty] at pair
              exact absurd pair (by decide)
            obtain ⟨others, rfl, _, after⟩ := items_cell next some_left
            rw [last] at after
            obtain rfl := items_nil after
            cases accepted
            refine ⟨[], [], by simp, by simp, fun _ => rfl, fun few => absurd few (by simp), fun _ => ?_⟩
            rw [if_neg (by simp), eval_ok (require_sym symbol.1)]
            simp [bindRest, paired]
          · cases accepted
        · rename_i ordinary
          simp only [if_neg ordinary]
          split at accepted
          · cases accepted
          · rename_i named
            rw [eval_ok (require_sym (not_not.mp named).1)]
            split at accepted
            · -- An optional name takes an argument while there is one.
              rename_i later
              subst later
              rw [if_neg (by simp)]
              obtain ⟨others, less, first, second, none_left, _, enough⟩ :=
                ih (scope ++ [s.heap.get .duo .car cur, args.getD used nil]) next accepted
                  (by split <;> omega : (if used < args.length then used + 1 else used) ≤ args.length)
              obtain rfl := none_left rfl
              refine ⟨[], s.heap.get .duo .car cur :: less, first, ?_, fun _ => rfl,
                fun few => absurd few (by simp), fun _ => ?_⟩
              · rw [second, reverse_cons, append_assoc, singleton_append]
              · have count : (if used < args.length then used + 1 else used) +
                    min (args.length - (if used < args.length then used + 1 else used))
                      (([] : List Word).length + less.length) =
                    used + min (args.length - used) (([] : List Word).length +
                      (s.heap.get .duo .car cur :: less).length) := by
                  simp only [length_nil, length_cons]
                  split <;> omega
                rw [enough (by simp), count, nil_append, nil_append, paired_drop, append_assoc]
                rfl
            · rename_i required_one
              have required_one : optional = false := by simpa using required_one
              subst required_one
              by_cases room : used < args.length
              · rw [if_neg (by omega), if_pos room]
                obtain ⟨others, less, first, second, _, few, enough⟩ :=
                  ih (scope ++ [s.heap.get .duo .car cur, args.getD used nil]) next accepted room
                refine ⟨s.heap.get .duo .car cur :: others, less, ?_, second, by simp,
                  fun short => few (by simp only [length_cons] at short; omega), fun long => ?_⟩
                · rw [first, reverse_cons, append_assoc, singleton_append]
                · rw [length_cons] at long
                  have count : used + 1 + min (args.length - (used + 1))
                      (others.length + less.length) =
                      used + min (args.length - used)
                        ((s.heap.get .duo .car cur :: others).length + less.length) := by
                    rw [length_cons]
                    omega
                  rw [enough (by omega), count, cons_append, paired_drop, if_pos room, append_assoc]
                  rfl
              · -- No argument is left for this name.
                rw [if_pos ⟨by omega, rfl⟩]
                obtain ⟨others, less, first, second, _, _, _⟩ :=
                  ih scope next accepted within
                refine ⟨s.heap.get .duo .car cur :: others, less, ?_, second, by simp,
                  fun _ => rfl, fun long => ?_⟩
                · rw [first, reverse_cons, append_assoc, singleton_append]
                · rw [length_cons] at long
                  omega

end Loop

/-! ### What an accepted call leaves -/

section Layout

def KeepsPairs (h g : Heap) : Prop :=
  ∀ i < (h.table .duo).length, g.row .duo i = h.row .duo i

theorem keepsPairs_append (h : Heap) (data : Row) : KeepsPairs h (h.setTable .duo (h.table .duo ++ [data])) := by
  intro i inside
  rw [Heap.row, table_setTable, if_pos rfl, getD_append _ _ _ _ inside, Heap.row]

variable {k : Kind} {h g : Heap} {x : Word} {e : HostError} {p : Parsed}

theorem keepsPairs_setTable (h : Heap) (rows : Table) (other : k ≠ .duo) : KeepsPairs h (h.setTable k rows) := by
  intro i _
  rw [Heap.row, table_setTable, if_neg (Ne.symm other), Heap.row]

theorem KeepsPairs.items (keeps : KeepsPairs h g) {xs : List Word}
    (items : h.links.Items x xs) : g.links.Items x xs := by
  induction xs generalizing x with
  | nil => exact items
  | cons y ys ih =>
    obtain ⟨cell, item, next⟩ := items
    have inside : indexOf x < (h.table .duo).length := by
      by_contra outside
      have empty : h.get .duo .cdr x = 0 := by
        rw [Heap.get, Heap.read, Heap.row, getD_eq_default _ _ (not_lt.mp outside)]
        rfl
      have ends : h.links.Items 0 ys := by
        rw [← empty]
        exact next
      cases ys with
      | nil => exact absurd (show (0 : Word) = nil from ends) (by decide)
      | cons z zs => exact absurd (show tagOf 0 = .duo from ends.1) (by decide)
    have same : g.read .duo x = h.read .duo x := keeps _ inside
    have item' : g.get .duo .car x = h.get .duo .car x := by rw [Heap.get, same, Heap.get]
    have next' : g.get .duo .cdr x = h.get .duo .cdr x := by rw [Heap.get, same, Heap.get]
    refine ⟨cell, item'.trans item, ?_⟩
    change g.links.Items (g.get .duo .cdr x) ys
    rw [next']
    exact ih next

theorem KeepsPairs.trans {k : Heap} (first : KeepsPairs h g) (second : KeepsPairs g k)
    (longer : (h.table .duo).length ≤ (g.table .duo).length) : KeepsPairs h k :=
  fun i inside => (second i (by omega)).trans (first i inside)

theorem make_tag {data : Row} (done : h.make k data = .ok (x, g)) : tagOf x = k.tag := (make_points done).1

structure OnlyPairs (h g : Heap) (extra : Nat) : Prop where
  keeps : KeepsPairs h g
  others : ∀ k, k ≠ .duo → g.table k = h.table k
  size : (g.table .duo).length = (h.table .duo).length + extra
  words : g.words = h.words

theorem onlyPairs_cons {car cdr : Word} (done : h.cons car cdr = .ok (x, g)) : OnlyPairs h g 1 := by
  obtain ⟨-, -, -, rfl⟩ := make_ok done
  refine ⟨keepsPairs_append h _, fun k other => ?_, ?_, rfl⟩
  · rw [table_setTable, if_neg other]
  · rw [table_setTable, if_pos rfl, length_append]
    rfl

theorem OnlyPairs.trans {k : Heap} {m n : Nat} (first : OnlyPairs h g m)
    (second : OnlyPairs g k n) : OnlyPairs h k (m + n) where
  keeps := first.keeps.trans second.keeps (by have size := first.size; omega)
  others l other := (second.others l other).trans (first.others l other)
  size := by
    have one := first.size
    have two := second.size
    omega
  words := second.words.trans first.words

theorem listOf_items (xs : List Word) (done : h.listOf xs = .ok (x, g)) :
    g.links.Items x xs ∧ OnlyPairs h g xs.length := by
  induction xs generalizing x g with
  | nil =>
    cases done
    exact ⟨rfl, fun _ _ => rfl, fun _ _ => rfl, rfl, rfl⟩
  | cons y ys ih =>
    obtain ⟨⟨tail, middle⟩, built, made⟩ := bind_ok done
    obtain ⟨items, before⟩ := ih built
    have after := onlyPairs_cons made
    have row := make_read made
    have car : g.get .duo .car x = y := by rw [Heap.get, row]; rfl
    have cdr : g.get .duo .cdr x = tail := by rw [Heap.get, row]; rfl
    refine ⟨⟨make_tag made, car, ?_⟩, before.trans after⟩
    change g.links.Items (g.get .duo .cdr x) ys
    rw [cdr]
    exact after.keeps.items items

theorem make_fails {data : Row}
    (failed : h.make k data = .error e) : data.getD 0 0 = zap ∨ maxIndex < (h.table k).length := by
  simp only [Heap.make] at failed
  split at failed
  · rename_i marked
    exact Or.inl marked
  · split at failed
    · rename_i full
      exact Or.inr full
    · cases failed

theorem listOf_fails (xs : List Word) (failed : h.listOf xs = .error e) :
    zap ∈ xs ∨ maxIndex < (h.table .duo).length + xs.length := by
  induction xs generalizing e with
  | nil => cases failed
  | cons y ys ih =>
    simp only [Heap.listOf] at failed
    cases built : h.listOf ys with
    | error other =>
      rcases ih built with reserved | full
      · exact Or.inl (mem_cons_of_mem _ reserved)
      · rw [length_cons]
        omega
    | ok made =>
      obtain ⟨tail, g⟩ := made
      rw [built] at failed
      have size := (listOf_items ys built).2.size
      rcases make_fails failed with reserved | full
      · exact Or.inl (by rw [← reserved]; exact mem_cons_self)
      · have full : maxIndex < (g.table .duo).length := full
        rw [length_cons]
        omega

theorem newv32_reads {data : List Word}
    (done : h.newv32 data = .ok (x, g)) : g.v32slice x = data ∧ g.table .duo = h.table .duo := by
  obtain ⟨fits, made⟩ := newWords_ok done
  have row := make_read made
  obtain ⟨-, -, -, rfl⟩ := make_ok made
  refine ⟨?_, ?_⟩
  · rw [Heap.v32slice, Heap.slice, Heap.get, Heap.get, row]
    change List.take (UInt32.ofNat data.length).toNat
      (List.drop (UInt32.ofNat h.words.length).toNat (h.words ++ data)) = data
    rcases fits with empty | room
    · rw [length_eq_zero_iff.mp empty]
      simp
    · rw [toNat_ofNat_of_le (by omega), toNat_ofNat_of_le (by omega), drop_left, take_length]
  · rw [table_setTable, if_neg (by decide)]
    rfl

theorem newv32_fails {data : List Word} (failed : h.newv32 data = .error e) :
    maxWord < h.words.length + data.length ∨ UInt32.ofNat h.words.length = zap ∨ maxIndex < (h.table .v32).length := by
  simp only [Heap.newv32, Heap.newWords] at failed
  split at failed
  · exact Or.inr (make_fails failed)
  · cases checked : poolSize h.words.length data.length with
    | error other =>
      simp only [poolSize] at checked
      split at checked
      · omega
      · cases checked
    | ok n =>
      rw [checked] at failed
      exact Or.inr (make_fails failed)

def Parsed.single (p : Parsed) : Nat := p.required.length + p.optional.length

def Parsed.Takes (p : Parsed) (n : Nat) : Prop :=
  p.required.length ≤ n ∧ (p.rest = none → n ≤ p.single)

structure Laid (h : Heap) (p : Parsed) (args slots : List Word) : Prop where
  length : slots.length = 2 * p.names.length
  name : ∀ i < p.names.length, slots.getD (2 * i) nil = p.names.getD i nil
  value : ∀ i < p.single, slots.getD (2 * i + 1) nil = args.getD i nil
  rest : ∀ name, p.rest = some name →
    h.links.Items (slots.getD (2 * p.single + 1) nil) (args.drop p.single)

theorem paired_length (ps args : List Word) : (paired ps args).length = 2 * ps.length := by
  induction ps generalizing args with
  | nil => rfl
  | cons p ps ih =>
    rw [paired, length_cons, length_cons, ih, length_cons]
    omega

theorem paired_name {ps : List Word} (args : List Word) {i : Nat} (inside : i < ps.length) :
    (paired ps args).getD (2 * i) nil = ps.getD i nil := by
  induction ps generalizing args i with
  | nil => exact absurd inside (Nat.not_lt_zero _)
  | cons p ps ih =>
    cases i with
    | zero => rfl
    | succ i =>
      rw [length_cons] at inside
      rw [Nat.mul_succ, paired, getD_cons_succ, getD_cons_succ, getD_cons_succ]
      exact ih _ (by omega)

theorem paired_value {ps : List Word} (args : List Word) {i : Nat} (inside : i < ps.length) :
    (paired ps args).getD (2 * i + 1) nil = args.getD i nil := by
  induction ps generalizing args i with
  | nil => exact absurd inside (Nat.not_lt_zero _)
  | cons p ps ih =>
    cases i with
    | zero => cases args <;> rfl
    | succ i =>
      rw [length_cons] at inside
      have next := ih args.tail (i := i) (by omega)
      rw [Nat.mul_succ, paired, getD_cons_succ, getD_cons_succ, next]
      cases args <;> simp

theorem laid_single (h : Heap) (args : List Word) (rest : p.rest = none) :
    Laid h p args (paired (p.required ++ p.optional) args) := by
  have names : p.names = p.required ++ p.optional := by simp [Parsed.names, rest]
  refine ⟨?_, fun i inside => ?_, fun i inside => ?_, fun name some => ?_⟩
  · rw [names, paired_length]
  · rw [names] at inside ⊢
    exact paired_name args inside
  · exact paired_value args (by rw [length_append]; exact inside)
  · rw [rest] at some
    cases some

theorem laid_rest {args : List Word} {name xs : Word}
    (rest : p.rest = some name) (items : h.links.Items xs (args.drop p.single)) :
    Laid h p args (paired (p.required ++ p.optional) args ++ [name, xs]) := by
  have single : (p.required ++ p.optional).length = p.single := length_append
  have half := paired_length (p.required ++ p.optional) args
  rw [single] at half
  have names : p.names = p.required ++ p.optional ++ [name] := by simp [Parsed.names, rest]
  have size : p.names.length = p.single + 1 := by
    rw [names, length_append, single, length_singleton]
  refine ⟨?_, fun i inside => ?_, fun i inside => ?_, fun other some => ?_⟩
  · rw [length_append, half, size]
    rfl
  · rw [names]
    rcases Nat.lt_or_ge i p.single with before | last
    · rw [getD_append _ _ _ _ (by omega), getD_append _ _ _ _ (by omega)]
      exact paired_name args (by omega)
    · rw [getD_append_right _ _ _ _ (by omega), getD_append_right _ _ _ _ (by omega),
        half, single, show 2 * i - 2 * p.single = 0 by omega, show i - p.single = 0 by omega]
      rfl
  · rw [getD_append _ _ _ _ (by omega)]
    exact paired_value args (by omega)
  · rw [getD_append_right _ _ _ _ (by omega), half,
      show 2 * p.single + 1 - 2 * p.single = 1 by omega]
    exact items

theorem Laid.keep {args slots : List Word} (laid : Laid h p args slots)
    (keeps : KeepsPairs h g) : Laid g p args slots where
  length := laid.length
  name := laid.name
  value := laid.value
  rest name some := keeps.items (laid.rest name some)

def Registers.scope (s : Registers) : List Word := s.heap.v32slice (s.heap.get .duo .car s.env)

structure Bound (closure : Closure) (args : List Word) (p : Parsed) (s : Registers) : Prop where
  cell : tagOf s.env = .duo
  captured : s.heap.get .duo .cdr s.env = closure.captured
  laid : Laid s.heap p args s.scope

def Parsed.spare (p : Parsed) (n : Nat) : Nat := if p.rest = none then 0 else n - p.single

/-- What the allocations of a call ask of the heap. -/
structure Room (h : Heap) (p : Parsed) (args : List Word) : Prop where
  cells : (h.table .duo).length + p.spare args.length ≤ maxIndex
  items : p.rest ≠ none → zap ∉ args.drop p.single
  vectors : (h.table .v32).length ≤ maxIndex
  words : h.words.length + 2 * p.names.length ≤ maxWord
  start : UInt32.ofNat h.words.length ≠ zap

end Layout

section Call
variable {known : Known → Word} {keywords callee : Word} {closure : Closure} {args : List Word}
  {p : Parsed} {s : Registers}

variable {E : Stop → Registers → Prop} {k : Kind} {α : Type} {m m' : Eval α}

theorem wp_allocate {make : Heap → Except HostError (Word × Heap)} {Q : Word → Registers → Prop}
    (ok : ∀ x g, make s.heap = .ok (x, g) → Q x { s with heap := g })
    (error : ∀ e, make s.heap = .error e → E (.host e) s) : wp (allocate make) Q E s := by
  rw [allocate, wp_bind, wp_get]
  cases made : make s.heap with
  | ok result => exact ok result.1 result.2 made
  | error e => exact error e made

/-- The tail of `bindScope`: the scope's vector, the environment, the count of calls. -/
def install (callee : Word) (closure : Closure) (scope : List Word) : Eval Unit := do
  let vec ← allocate fun h => h.newv32 scope
  let env ← allocate fun h => h.cons vec closure.captured
  modify fun s => { s with
    env
    heap := s.heap.set (if tagOf callee = .func then .func else .mac) .cnt callee (closure.count + 1) }

theorem read_setTable_ne (h : Heap) {l : Kind} (rows : Table) (x : Word) (other : k ≠ l) :
    (h.setTable k rows).read l x = h.read l x := by
  rw [Heap.read, Heap.row, table_setTable, if_neg (Ne.symm other), Heap.read, Heap.row]

theorem slice_setTable (h : Heap) (rows : Table) (x : Word) (other : k ≠ .v32) :
    (h.setTable k rows).v32slice x = h.v32slice x := by
  simp only [Heap.v32slice, Heap.slice, Heap.get, read_setTable_ne h rows x other]
  rfl

theorem wp_install {slots : List Word} (laid : Laid s.heap p args slots) :
    wp (install callee closure slots) (fun _ => Bound closure args p) (fun e _ => (∃ x, e = .host x) ∧
        (maxWord < s.heap.words.length + slots.length ∨
          UInt32.ofNat s.heap.words.length = zap ∨ maxIndex < (s.heap.table .v32).length ∨
          maxIndex < (s.heap.table .duo).length)) s := by
  rw [install, wp_bind]
  apply wp_allocate
  · intro vec g made
    obtain ⟨reads, pairs⟩ := newv32_reads made
    rw [wp_bind]
    apply wp_allocate
    · intro env k consed
      have row := make_read consed
      have keeps : KeepsPairs s.heap k := by
        have later := (onlyPairs_cons consed).keeps
        intro i inside
        have first : g.row .duo i = s.heap.row .duo i := by rw [Heap.row, pairs, Heap.row]
        rw [← first]
        exact later i (by rw [show (g.table .duo).length = _ from congrArg List.length pairs]
                          exact inside)
      have counted : (if tagOf callee = .func then Kind.func else .mac) ≠ .duo ∧
          (if tagOf callee = .func then Kind.func else .mac) ≠ .v32 := by
        split <;> decide
      generalize (if tagOf callee = .func then Kind.func else .mac) = table at counted
      obtain ⟨apart, vectors⟩ := counted
      have pair : (k.set table .cnt callee (closure.count + 1)).read .duo env =
          [vec, closure.captured] := by
        rw [Heap.set, Heap.setColumn, read_setTable_ne _ _ _ apart, row]
      have slots_read : (k.set table .cnt callee (closure.count + 1)).v32slice vec = slots := by
        rw [Heap.set, Heap.setColumn, slice_setTable _ _ _ vectors]
        obtain ⟨-, -, -, rfl⟩ := make_ok consed
        rw [slice_setTable _ _ _ (by decide)]
        exact reads
      rw [wp_modify]
      refine ⟨make_tag consed, ?_, ?_⟩
      · change (k.set table .cnt callee (closure.count + 1)).get .duo .cdr env = _
        rw [Heap.get, pair]
        rfl
      · have scope : (k.set table .cnt callee (closure.count + 1)).get .duo .car env = vec := by
          rw [Heap.get, pair]
          rfl
        rw [Registers.scope]
        change Laid (k.set table .cnt callee (closure.count + 1)) p args
          ((k.set table .cnt callee (closure.count + 1)).v32slice
            ((k.set table .cnt callee (closure.count + 1)).get .duo .car env))
        rw [scope, slots_read]
        exact (laid.keep keeps).keep (keepsPairs_setTable k _ apart)
    · intro e failed
      refine ⟨⟨e, rfl⟩, ?_⟩
      rcases make_fails failed with reserved | full
      · exact absurd reserved (by
          obtain ⟨-, room, rfl, -⟩ := make_ok (newWords_ok made).2
          exact pointer_ne_zap .v32 room)
      · have full : maxIndex < (g.table .duo).length := full
        rw [pairs] at full
        exact Or.inr (Or.inr (Or.inr full))
  · intro e failed
    refine ⟨⟨e, rfl⟩, ?_⟩
    rcases newv32_fails failed with long | start | full
    · exact Or.inl long
    · exact Or.inr (Or.inl start)
    · exact Or.inr (Or.inr (Or.inl full))

theorem scanCount_ok {x : Word} {xs : List Word} (items : s.heap.links.Items x xs) :
    scanCount known x s = .ok xs.length s := by
  have scan : wp (scanCount known x) (fun n s' => n = xs.length ∧ s' = s) (fun _ _ => False) s :=
    scanCount_items items ⟨rfl, rfl⟩
  obtain ⟨n, s', run, rfl, rfl⟩ := wp_run scan fun _ _ never => never
  exact run

theorem eval_congr {β : Type} (f : α → Eval β) {s s' : Registers}
    (same : m s = m' s') : (m >>= f) s = (m' >>= f) s' := by
  change EStateM.bind m f s = EStateM.bind m' f s'
  simp only [EStateM.bind, same]

theorem wp_of_run {Q : α → Registers → Prop} (same : m s = m' s) (h : wp m' Q E s) : wp m Q E s := by
  unfold wp at *
  rwa [same]

variable (callee args) in
theorem bindScope_parsed (accepted : irParseParameters s.heap known keywords closure.parameters = some p) :
    (args.length < p.required.length → bindScope known callee closure args s = wrongCount known callee s) ∧
    (p.required.length ≤ args.length → bindScope known callee closure args s =
        (bindRest args p.rest (min args.length p.single)
            (paired (p.required ++ p.optional) args) >>= fun (used, scope) =>
          if used ≠ args.length then wrongCount known callee else install callee closure scope) s) := by
  simp only [irParseParameters] at accepted
  split at accepted
  · rename_i count
    obtain ⟨ps, items⟩ := irListLength_items _ count
    have begun : bindScope known callee closure args s =
        (bindLoop known callee closure.parameters args ps.length closure.parameters false 0 [] >>=
          fun (used, scope) =>
            if used ≠ args.length then wrongCount known callee
            else install callee closure scope) s :=
      eval_ok (scanCount_ok items)
    obtain ⟨more, less, first, second, _, few, enough⟩ :=
      bindLoop_parsed callee closure.parameters _ [] items accepted
        (Nat.zero_le args.length)
    rw [reverse_nil, nil_append] at first second
    rw [← first, Nat.sub_zero] at few enough
    rw [← second, Nat.zero_add, nil_append, drop_zero] at enough
    refine ⟨fun short => ?_, fun long => ?_⟩
    · rw [begun, eval_congr _ (few short)]
      rfl
    · rw [begun, eval_congr _ (enough long)]
      rfl
  · cases accepted

theorem bindScope_refuses (accepted : irParseParameters s.heap known keywords closure.parameters = some p)
    (refused : ¬ p.Takes args.length) : bindScope known callee closure args s = wrongCount known callee s := by
  obtain ⟨few, enough⟩ := bindScope_parsed callee args accepted
  rcases Nat.lt_or_ge args.length p.required.length with short | long
  · exact few short
  · have many : p.rest = none ∧ p.single < args.length := by
      unfold Parsed.Takes at refused
      simpa [long] using refused
    rw [enough long, many.1]
    have extra : min args.length p.single ≠ args.length := by omega
    simp only [bindRest, pure_bind]
    rw [if_pos extra]

theorem wp_bindScope (accepted : irParseParameters s.heap known keywords closure.parameters = some p)
    (takes : p.Takes args.length) : wp (bindScope known callee closure args) (fun _ => Bound closure args p)
      (fun e _ => (∃ x, e = .host x) ∧ ¬ Room s.heap p args) s := by
  have start := (bindScope_parsed callee args accepted).2 takes.1
  have lacks {slots : List Word} (size : slots.length = 2 * p.names.length) {g : Heap}
      (pairs : (g.table .duo).length = (s.heap.table .duo).length + p.spare args.length)
      (vectors : g.table .v32 = s.heap.table .v32) (words : g.words = s.heap.words)
      (lack : maxWord < g.words.length + slots.length ∨ UInt32.ofNat g.words.length = zap ∨
        maxIndex < (g.table .v32).length ∨ maxIndex < (g.table .duo).length) :
      ¬ Room s.heap p args := by
    intro room
    rw [words, size, vectors, pairs] at lack
    have one := room.words
    have two := room.vectors
    have three := room.cells
    rcases lack with long | reserved | full | cells
    · omega
    · exact room.start reserved
    · omega
    · omega
  apply wp_of_run start
  cases rest : p.rest with
  | none =>
    have spare : p.spare args.length = 0 := by rw [Parsed.spare, if_pos rest]
    have upto : min args.length p.single = args.length := Nat.min_eq_left (takes.2 rest)
    have laid := laid_single s.heap args rest
    simp only [bindRest, pure_bind, upto, ne_eq, not_true_eq_false, if_false]
    refine wp_mono (wp_install laid) (fun _ _ bound => bound) fun e s' failed => ⟨failed.1, ?_⟩
    exact lacks laid.length (by rw [spare, Nat.add_zero]) rfl rfl failed.2
  | some name =>
    have spare : p.spare args.length = (args.drop p.single).length := by
      rw [Parsed.spare, if_neg (by simp [rest]), length_drop]
    have left : args.drop (min args.length p.single) = args.drop p.single := by
      rcases Nat.le_total args.length p.single with short | long
      · rw [Nat.min_eq_left short, drop_length, drop_eq_nil_of_le short]
      · rw [Nat.min_eq_right long]
    simp only [bindRest, left, bind_assoc, pure_bind, ne_eq, not_true_eq_false, if_false, listOf]
    rw [wp_bind]
    apply wp_allocate
    · intro xs g built
      obtain ⟨items, only⟩ := listOf_items _ built
      have laid := laid_rest rest items
      refine wp_mono (wp_install (s := { s with heap := g }) laid) (fun _ _ bound => bound)
        fun e s' failed => ⟨failed.1, ?_⟩
      exact lacks laid.length (by rw [spare]; exact only.size) (only.others _ (by decide))
        only.words failed.2
    · intro e failed
      refine ⟨⟨e, rfl⟩, fun room => ?_⟩
      rcases listOf_fails _ failed with reserved | full
      · exact room.items (by simp [rest]) reserved
      · have cells := room.cells
        rw [spare] at cells
        omega

theorem irResolveLoop_parameter {symbol : Word} (names : List Word) (outer : List ScopeEntry) (depth index : Nat)
    (held : symbol ∈ names) : irResolveLoop symbol (names.map .binding ++ .frame :: outer) depth index = .reference
    (some depth) (some (index + names.idxOf symbol)) := by
  induction names generalizing index with
  | nil => cases held
  | cons name names ih =>
    rw [map_cons, cons_append, irResolveLoop]
    by_cases same : name = symbol
    · rw [if_pos same, if_pos (by simp), idxOf_cons, same, beq_self_eq_true]
      rfl
    · have later : symbol ∈ names := by
        rcases mem_cons.mp held with first | later
        · exact absurd first.symm same
        · exact later
      rw [if_neg same, ih _ later, idxOf_cons, beq_false_of_ne same]
      simp only [cond_false]
      rw [show index + 1 + names.idxOf symbol = index + (names.idxOf symbol + 1) by omega]

/-- The evaluator's walk over a parameter list and the compiler's agree: which counts of
    arguments are taken, and at which slot each name is. -/
theorem bind_agrees (known : Known → Word) (keywords callee : Word) (closure : Closure)
    (args : List Word) (p : Parsed) (outer : List ScopeEntry) (s : Registers)
    (accepted : irParseParameters s.heap known keywords closure.parameters = some p) :
    (¬ p.Takes args.length → bind known callee closure args s =
      .error (.signal (.named .programError [known .invalidArgumentCount, callee])) s) ∧
    (p.Takes args.length → wp (bind known callee closure args) (fun _ => Bound closure args p)
      (fun e s' => (∃ x, e = .host x) ∧ ¬ Room s.heap p args ∨
        e = .signal (.named .invalidFunction [closure.body]) ∧ Bound closure args p s') s) ∧
    ∀ name ∈ p.names, irResolve name (irFunctionScope p.bindings outer) =
      .reference (some 0) (some (p.names.idxOf name)) := by
  refine ⟨fun refused => ?_, fun takes => ?_, fun name held => ?_⟩
  · exact eval_error (bindScope_refuses accepted refused)
  · rw [bind, wp_bind]
    refine wp_mono (wp_bindScope accepted takes) (fun _ s' bound => ?_) fun e s' failed => ?_
    · rw [wp_bind, executableBody, wp_bind, wp_get]
      cases lowered : codeRecordOp s'.heap closure.body with
      | none =>
        simp only [lowered, wp_pure]
        exact ⟨bound.cell, bound.captured, bound.laid⟩
      | some op =>
        simp only [lowered, wp_ite]
        exact ⟨fun _ => Or.inr ⟨rfl, bound⟩, fun _ => ⟨bound.cell, bound.captured, bound.laid⟩⟩
    · exact Or.inl failed
  · have found := irResolveLoop_parameter p.names outer 0 0 held
    rwa [Nat.zero_add] at found

/-- `(first &optional second &rest others)`, with the symbols at the first rows of their table. -/
def threeParameters : Heap where
  vat := { duo :=
    [[pointer .sym 0 false, pointer .duo 1 false], [pointer .sym 9 false, pointer .duo 2 false],
     [pointer .sym 1 false, pointer .duo 3 false], [pointer .sym 8 false, pointer .duo 4 false],
     [pointer .sym 2 false, nil]] }

def threeKnown : Known → Word
  | .ampOptional => pointer .sym 9 false
  | .ampRest => pointer .sym 8 false
  | _ => nil

theorem threeParameters_parsed : irParseParameters threeParameters threeKnown nil (pointer .duo 0 false) = some
      ⟨[pointer .sym 0 false], [pointer .sym 1 false], some (pointer .sym 2 false)⟩ := by
  decide +kernel

/-- No argument is too few; of four, the last two are the list of the rest parameter. -/
theorem bind_agrees_three :
    bind threeKnown nil ⟨nil, pointer .duo 0 false, nil, nil, 0⟩ [] { heap := threeParameters } =
      .error (.signal (.named .programError [nil, nil])) { heap := threeParameters } ∧
    wp (bind threeKnown nil ⟨nil, pointer .duo 0 false, nil, nil, 0⟩ [t, nil, t, t])
      (fun _ s => s.scope.getD 4 nil = pointer .sym 2 false ∧ s.heap.links.Items (s.scope.getD 5 nil) [t, t])
      (fun e _ => e = .signal (.named .invalidFunction [nil])) { heap := threeParameters } ∧
    irResolve (pointer .sym 2 false) (irFunctionScope [.binding (pointer .sym 0 false),
      .binding (pointer .sym 1 false), .binding (pointer .sym 2 false)] []) =
        .reference (some 0) (some 2) := by
  refine ⟨?_, ?_, ?_⟩
  · exact (bind_agrees threeKnown nil nil _ [] _ [] { heap := threeParameters }
      threeParameters_parsed).1 (by unfold Parsed.Takes; decide)
  · refine wp_mono ((bind_agrees threeKnown nil nil _ [t, nil, t, t] _ [] { heap := threeParameters }
      threeParameters_parsed).2.1 (by unfold Parsed.Takes; decide)) (fun _ s bound => ?_)
      fun e s failed => ?_
    · exact ⟨bound.laid.name 2 (by decide), bound.laid.rest _ rfl⟩
    · rcases failed with lacking | refused
      · exact absurd ⟨by decide, by decide, by decide, by decide, by decide⟩ lacking.2
      · exact refused.1
  · have agrees := bind_agrees threeKnown nil nil ⟨nil, pointer .duo 0 false, nil, nil, 0⟩ []
      ⟨[pointer .sym 0 false], [pointer .sym 1 false], some (pointer .sym 2 false)⟩ []
      { heap := threeParameters } threeParameters_parsed
    exact agrees.2.2 (pointer .sym 2 false) (by decide)

end Call
end Nxt.Wisp

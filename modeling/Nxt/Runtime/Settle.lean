import Nxt.Runtime.Group

/- What a group keeps over every run: a job is counted from its start to its completion, the policy
   is asked about the completions in their order until it first asks for the stop, and only a stop of
   the parent, a failure to start a job or that answer stops the group. -/
namespace Nxt.Runtime
open List

section Log

structure Log (completions : List Completion) (consulted : List (Completion × Bool)) (stopping : Bool) :
    Prop where
  prefixed : consulted.map Prod.fst <+: completions
  whole : stopping = false → consulted.map Prod.fst = completions ∧ ∀ q ∈ consulted, q.2 = false
  last : ∀ q ∈ consulted.dropLast, q.2 = false

variable {completions : List Completion} {consulted : List (Completion × Bool)} {stopping : Bool}

theorem Log.stop (log : Log completions consulted stopping) : Log completions consulted true :=
  ⟨log.prefixed, (fun open_ => by cases open_), log.last⟩

theorem Log.unasked (log : Log completions consulted true) (c : Completion) : Log (completions ++ [c]) consulted true :=
  ⟨log.prefixed.trans (prefix_append _ _), (fun open_ => by cases open_), log.last⟩

theorem Log.asked (log : Log completions consulted false) (c : Completion) (answer : Bool) :
    Log (completions ++ [c]) (consulted ++ [(c, answer)]) answer := by
  obtain ⟨whole, unstopped⟩ := log.whole rfl
  have same : (consulted ++ [(c, answer)]).map Prod.fst = completions ++ [c] := by
    rw [map_append, whole]
    rfl
  refine ⟨by rw [same], ?_, ?_⟩
  · rintro rfl
    refine ⟨same, ?_⟩
    intro q held
    rcases mem_append.mp held with old | new
    · exact unstopped q old
    · rw [mem_singleton.mp new]
  · rw [dropLast_concat]
    exact unstopped

end Log

def Stage.isStarted {T E : Type} : Stage T E → Bool
  | .started => true
  | _ => false

def Stage.Allows {T E : Type} : Stage T E → Nat → Prop
  | .fresh _, n => n = 0
  | .started, n => n = 1
  | .done _, n => n ≤ 1

namespace Group
variable {T E P : Type} {ask : P → Completion → Bool × P} {g : Group T E P} {owed : Option Nat}

def census (g : Group T E P) : List (Stage T E × Nat) := g.children.map fun c => (c.stage, c.starts)

def visited (phase : Phase T E) (i : Nat) : Prop := ∀ next, phase = .starting next → i < next

/-- The invariant of a group; `owed` is a job whose completion is about to be reported. -/
structure Sound (g : Group T E P) (owed : Option Nat) : Prop where
  counts : g.pending = (g.census.countP fun e => e.1.isStarted) + owed.toList.length
  once : ∀ e ∈ g.census, e.1.Allows e.2
  ahead : ∀ next, g.phase = .starting next → ∀ (i : Nat) (e : Stage T E × Nat), next ≤ i →
    g.census[i]? = some e → e.2 = 0
  recorded : ∀ c ∈ g.completions, ∃ r n, g.census[c.index]? = some (.done r, n) ∧ r.failed = c.failed
  seen : g.setupFailure = none → ∀ (i : Nat) (r : Outcome T E) (n : Nat),
    g.census[i]? = some (.done r, n) → visited g.phase i → owed ≠ some i →
    (⟨i, r.failed⟩ : Completion) ∈ g.completions
  skipped : g.setupFailure = none → ∀ (i : Nat) (observed : Bool) (n : Nat),
    g.census[i]? = some (.fresh observed, n) → visited g.phase i → g.stopping = true
  log : Log g.completions g.consulted g.stopping
  caused : g.stopping = true →
    g.parentStopped = true ∨ g.setupFailure ≠ none ∨ ∃ c, (c, true) ∈ g.consulted
  unasked : g.stopping = false → ∀ child ∈ g.children, child.stopRequested = false
  trigger : ∀ c, (c, true) ∈ g.consulted → ∀ child, g.children[c.index]? = some child →
    child.stopRequested = false
  failed : g.setupFailure ≠ none → ∀ next, g.phase ≠ .starting next

theorem stop_stage (child : Child T E) : child.stop.stage = child.stage ∧ child.stop.starts = child.starts := by
  unfold Child.stop
  split
  · rename_i running
    exact ⟨rfl, rfl⟩
  · exact ⟨rfl, rfl⟩

theorem stop_done {child : Child T E} {r : Outcome T E} (done : child.stage = .done r) : child.stop = child := by
  unfold Child.stop
  rw [done]

theorem census_stop (children : List (Child T E)) :
    ((children.map Child.stop).map fun c => (c.stage, c.starts)) = children.map fun c => (c.stage, c.starts) := by
  rw [map_map]
  apply map_congr_left
  intro child _
  simp only [Function.comp, stop_stage]

theorem getElem?_census {i : Nat} {child : Child T E} (here : g.children[i]? = some child) :
    g.census[i]? = some (child.stage, child.starts) := by
  unfold census
  rw [getElem?_map, here]
  rfl

theorem census_getElem? {i : Nat} {e : Stage T E × Nat} (here : g.census[i]? = some e) :
    ∃ child, g.children[i]? = some child ∧ child.stage = e.1 ∧ child.starts = e.2 := by
  unfold census at here
  rw [getElem?_map] at here
  obtain ⟨child, there, rfl⟩ := Option.map_eq_some_iff.mp here
  exact ⟨child, there, rfl, rfl⟩

theorem Sound.stop (ok : g.Sound owed) (cause : g.parentStopped = true ∨ g.setupFailure ≠ none) :
    g.stop.Sound owed := by
  have same : g.stop.census = g.census := census_stop g.children
  refine ⟨?_, ?_, ?_, ?_, ?_, ?_, ok.log.stop, ?_, ?_, ?_, ok.failed⟩
  · rw [same]
    exact ok.counts
  · rw [same]
    exact ok.once
  · rw [same]
    exact ok.ahead
  · rw [same]
    exact ok.recorded
  · rw [same]
    exact ok.seen
  · intro _ _ _ _ _ _
    rfl
  · intro _
    rcases cause with parent | failure
    · exact Or.inl parent
    · exact Or.inr (Or.inl failure)
  · intro open_
    cases open_
  · intro c triggered child here
    have here : (g.children.map Child.stop)[c.index]? = some child := here
    rw [getElem?_map] at here
    obtain ⟨old, there, rfl⟩ := Option.map_eq_some_iff.mp here
    have completion : c ∈ g.completions :=
      ok.log.prefixed.subset (mem_map.mpr ⟨(c, true), triggered, rfl⟩)
    obtain ⟨r, n, entry, -⟩ := ok.recorded c completion
    rw [getElem?_census there] at entry
    have done : old.stage = .done r := congrArg Prod.fst (Option.some.inj entry)
    rw [stop_done done]
    exact ok.trigger c triggered old there

theorem Sound.completed (ask : P → Completion → Bool × P) {i : Nat} (ok : g.Sound (some i))
    (child : Child T E) {r : Outcome T E} (here : g.children[i]? = some child) (done : child.stage = .done r) :
    (g.completed ask ⟨i, r.failed⟩).Sound none := by
  have entry := getElem?_census here
  rw [done] at entry
  have recorded : ∀ c ∈ g.completions ++ [(⟨i, r.failed⟩ : Completion)],
      ∃ r n, g.census[c.index]? = some (.done r, n) ∧ r.failed = c.failed := by
    intro c held
    rcases mem_append.mp held with old | new
    · exact ok.recorded c old
    · rw [mem_singleton.mp new]
      exact ⟨r, child.starts, entry, rfl⟩
  have seen : g.setupFailure = none → ∀ (j : Nat) (r' : Outcome T E) (n : Nat),
      g.census[j]? = some (.done r', n) → visited g.phase j → none ≠ some j →
      (⟨j, r'.failed⟩ : Completion) ∈ g.completions ++ [(⟨i, r.failed⟩ : Completion)] := by
    intro clean j r' n there before _
    by_cases same : i = j
    · subst same
      rw [entry] at there
      cases there
      simp
    · exact mem_append_left _
        (ok.seen clean j r' n there before (fun equal => same (Option.some.inj equal)))
  have counts : g.pending - 1 = (g.census.countP fun e => e.1.isStarted) + (none : Option Nat).toList.length := by
    rw [ok.counts]
    simp
  unfold Group.completed
  simp only
  split
  · rename_i stopping
    have log := ok.log
    rw [stopping] at log
    refine ⟨counts, ok.once, ok.ahead, recorded, seen, ok.skipped, ?_, ok.caused, ok.unasked, ok.trigger,
      ok.failed⟩
    show Log _ _ g.stopping
    rw [stopping]
    exact log.unasked _
  · rename_i running
    have running : g.stopping = false := by simpa using running
    have log := ok.log
    rw [running] at log
    have untriggered : ∀ c, (c, true) ∉ g.consulted := by
      intro c triggered
      cases (log.whole rfl).2 _ triggered
    split
    · rename_i stops
      have same : ∀ (g' : Group T E P), g'.children = g.children.map Child.stop → g'.census = g.census := by
        intro g' children
        unfold census
        rw [children]
        exact census_stop g.children
      have all := same { g.stop with } rfl
      refine ⟨?_, ?_, ?_, ?_, ?_, fun _ _ _ _ _ _ => rfl, ?_, ?_, ?_, ?_, ok.failed⟩
      · show g.pending - 1 = (g.stop.census.countP fun e => e.1.isStarted) + _
        rw [all]
        exact counts
      · show ∀ e ∈ g.stop.census, e.1.Allows e.2
        rw [all]
        exact ok.once
      · show ∀ next, g.phase = .starting next → ∀ (j : Nat) (e : Stage T E × Nat), next ≤ j →
          g.stop.census[j]? = some e → e.2 = 0
        rw [all]
        exact ok.ahead
      · show ∀ c ∈ g.completions ++ [(⟨i, r.failed⟩ : Completion)],
          ∃ r n, g.stop.census[c.index]? = some (.done r, n) ∧ r.failed = c.failed
        rw [all]
        exact recorded
      · show g.setupFailure = none → ∀ (j : Nat) (r' : Outcome T E) (n : Nat),
          g.stop.census[j]? = some (.done r', n) → visited g.phase j → none ≠ some j →
          (⟨j, r'.failed⟩ : Completion) ∈ g.completions ++ [(⟨i, r.failed⟩ : Completion)]
        rw [all]
        exact seen
      · rw [stops]
        exact log.asked _ true
      · intro _
        refine Or.inr (Or.inr ⟨⟨i, r.failed⟩, ?_⟩)
        rw [stops]
        exact mem_append_right _ (mem_singleton.mpr rfl)
      · intro open_
        cases open_
      · intro c triggered other there
        have there : (g.children.map Child.stop)[c.index]? = some other := there
        rcases mem_append.mp triggered with old | new
        · exact absurd old (untriggered c)
        · have first : c = ⟨i, r.failed⟩ := congrArg Prod.fst (mem_singleton.mp new)
          rw [first, getElem?_map, here] at there
          have equal : child.stop = other := Option.some.inj there
          rw [← equal, stop_done done]
          exact ok.unasked running child (mem_of_getElem? here)
    · rename_i goes
      have goes : (ask g.policy ⟨i, r.failed⟩).1 = false := by simpa using goes
      refine ⟨counts, ok.once, ok.ahead, recorded, seen, ok.skipped, ?_, ?_, ok.unasked, ?_, ok.failed⟩
      · show Log _ _ g.stopping
        rw [running, goes]
        exact log.asked _ false
      · intro stopping
        have stopping : g.stopping = true := stopping
        rw [running] at stopping
        cases stopping
      · intro c triggered
        rw [goes] at triggered
        rcases mem_append.mp triggered with old | new
        · exact absurd old (untriggered c)
        · cases congrArg Prod.snd (mem_singleton.mp new)

section Counts

theorem census_set (i : Nat) (child : Child T E) : (g.children.set i child).map (fun c => (c.stage, c.starts)) =
      g.census.set i (child.stage, child.starts) := by
  unfold census
  rw [map_set]

theorem countP_census_set {i : Nat} {old : Stage T E × Nat} (here : g.census[i]? = some old) (new : Stage T E × Nat) :
    ((g.census.set i new).countP fun e => e.1.isStarted) + (if old.1.isStarted then 1 else 0) =
      (g.census.countP fun e => e.1.isStarted) + (if new.1.isStarted then 1 else 0) := by
  obtain ⟨inside, value⟩ := List.getElem?_eq_some_iff.mp here
  have held : old ∈ g.census := mem_of_getElem? here
  rw [countP_set inside, value]
  cases running : old.1.isStarted with
  | false => simp
  | true =>
    have some_ : 0 < g.census.countP fun e => e.1.isStarted := countP_pos_iff.mpr ⟨old, held, running⟩
    simp only [if_true]
    omega

theorem getElem?_census_set {i j : Nat} {old new : Stage T E × Nat} (here : g.census[i]? = some old) :
    (g.census.set i new)[j]? = if i = j then some new else g.census[j]? := by
  rw [getElem?_set]
  split
  · rename_i same
    rw [if_pos (same ▸ (List.getElem?_eq_some_iff.mp here).1)]
  · rfl

theorem census_set_cases {i j : Nat} {old new e : Stage T E × Nat} (here : g.census[i]? = some old)
    (there : (g.census.set i new)[j]? = some e) : (j = i ∧ e = new) ∨ (j ≠ i ∧ g.census[j]? = some e) := by
  rw [getElem?_census_set here] at there
  split at there
  · rename_i same
    exact Or.inl ⟨same.symm, (Option.some.inj there).symm⟩
  · rename_i apart
    exact Or.inr ⟨Ne.symm apart, there⟩

end Counts

section Steps
variable {i : Nat} {child : Child T E}

theorem visited_next {j : Nat} (before : visited (.starting (i + 1) : Phase T E) j) (apart : j ≠ i)
    (setup : g.phase = .starting i) : visited g.phase j := by
  intro next at_
  rw [setup] at at_
  cases at_
  have bound := before (i + 1) rfl
  omega

section
variable (ok : g.Sound none)
include ok

theorem Sound.visit_done (setup : g.phase = .starting i)
    (here : g.children[i]? = some child) {r : Outcome T E} (done : child.stage = .done r) :
    (Group.completed ask { g with phase := .starting (i + 1), pending := g.pending + 1 }
      ⟨i, r.failed⟩).Sound none := by
  have entry := getElem?_census here
  rw [done] at entry
  have clean : g.setupFailure = none := by
    by_contra failure
    exact ok.failed failure i setup
  refine Sound.completed ask ?_ child here done
  refine ⟨?_, ok.once, ?_, ok.recorded, ?_, ?_, ok.log, ok.caused, ok.unasked, ok.trigger, ?_⟩
  · show g.pending + 1 = _ + 1
    rw [ok.counts]
    rfl
  · intro next at_ j e after
    cases at_
    exact ok.ahead i setup j e (by omega)
  · intro _ j r' n there before owed
    have apart : j ≠ i := by
      rintro rfl
      exact owed rfl
    exact ok.seen clean j r' n there (visited_next before apart setup) (by simp)
  · intro _ j observed n there before
    have apart : j ≠ i := by
      rintro rfl
      have same : g.census[j]? = some (.fresh observed, n) := there
      rw [entry] at same
      cases same
    exact ok.skipped clean j observed n there (visited_next before apart setup)
  · intro failure
    exact absurd clean failure

theorem Sound.visit_skip (setup : g.phase = .starting i)
    (here : g.children[i]? = some child) {observed : Bool} (fresh : child.stage = .fresh observed)
    (stopping : g.stopping = true) : Sound { g with phase := .starting (i + 1) } none := by
  have entry := getElem?_census here
  rw [fresh] at entry
  have clean : g.setupFailure = none := by
    by_contra failure
    exact ok.failed failure i setup
  refine ⟨ok.counts, ok.once, ?_, ok.recorded, ?_, fun _ _ _ _ _ _ => stopping, ok.log, ok.caused,
    ok.unasked, ok.trigger, fun failure => absurd clean failure⟩
  · intro next at_ j e after
    cases at_
    exact ok.ahead i setup j e (by omega)
  · intro _ j r n there before owed
    have apart : j ≠ i := by
      rintro rfl
      have same : g.census[j]? = some (.done r, n) := there
      rw [entry] at same
      cases same
    exact ok.seen clean j r n there (visited_next before apart setup) owed

theorem Sound.failSetup (phase : Phase T E) (e : Exn E) :
    (Group.failSetup { g with phase } e).Sound none := by
  refine Sound.stop (g := { g with phase := .draining, setupFailure := some e }) ?_ (Or.inr (by simp))
  refine ⟨ok.counts, ok.once, ?_, ok.recorded, ?_, ?_, ok.log, ?_, ok.unasked, ok.trigger, ?_⟩
  · intro next at_
    cases at_
  · intro clean
    cases clean
  · intro clean
    cases clean
  · intro _
    exact Or.inr (Or.inl (by simp))
  · intro _ next at_
    cases at_

theorem Sound.set_kept (here : g.children[i]? = some child)
    (unfinished : ∀ r, child.stage ≠ .done r) {new : Child T E} (asked : new.stopRequested = child.stopRequested) :
    (∀ c ∈ g.completions, ∃ r n, (g.census.set i (new.stage, new.starts))[c.index]? = some (.done r, n) ∧
      r.failed = c.failed) ∧ (g.stopping = false → ∀ c ∈ g.children.set i new, c.stopRequested = false) ∧
    ∀ c, (c, true) ∈ g.consulted → ∀ other, (g.children.set i new)[c.index]? = some other →
      other.stopRequested = false := by
  have entry := getElem?_census here
  have elsewhere : ∀ {j : Nat} {r : Outcome T E} {n : Nat}, g.census[j]? = some (.done r, n) → j ≠ i := by
    rintro j r n there rfl
    rw [entry] at there
    exact unfinished r (congrArg Prod.fst (Option.some.inj there))
  refine ⟨?_, ?_, ?_⟩
  · intro c held
    obtain ⟨r, n, there, failed⟩ := ok.recorded c held
    refine ⟨r, n, ?_, failed⟩
    rw [getElem?_census_set entry, if_neg (elsewhere there).symm]
    exact there
  · intro open_ c held
    rcases mem_or_eq_of_mem_set held with old | rfl
    · exact ok.unasked open_ c old
    · rw [asked]
      exact ok.unasked open_ child (mem_of_getElem? here)
  · intro c triggered other there
    have completion : c ∈ g.completions :=
      ok.log.prefixed.subset (mem_map.mpr ⟨(c, true), triggered, rfl⟩)
    obtain ⟨r, n, done, -⟩ := ok.recorded c completion
    rw [getElem?_set_ne (elsewhere done).symm] at there
    exact ok.trigger c triggered other there

theorem Sound.visit_start (setup : g.phase = .starting i)
    (here : g.children[i]? = some child) {observed : Bool} (fresh : child.stage = .fresh observed) :
    Sound { g with
      phase := .starting (i + 1)
      children := g.children.set i { child with stage := .started, starts := child.starts + 1 }
      pending := g.pending + 1 } none := by
  have entry := getElem?_census here
  rw [fresh] at entry
  have unstarted : child.starts = 0 := ok.ahead i setup i _ (Nat.le_refl _) entry
  have clean : g.setupFailure = none := by
    by_contra failure
    exact ok.failed failure i setup
  let new : Child T E := { child with stage := .started, starts := child.starts + 1 }
  have census : Group.census { g with
      phase := .starting (i + 1), children := g.children.set i new, pending := g.pending + 1 } =
      g.census.set i (.started, child.starts + 1) := census_set i new
  obtain ⟨recorded, unasked, trigger⟩ := ok.set_kept here (by rw [fresh]; nofun)
    (show new.stopRequested = child.stopRequested from rfl)
  refine ⟨?_, ?_, ?_, ?_, ?_, ?_, ok.log, ok.caused, unasked, trigger, fun failure => absurd clean failure⟩
  · rw [census]
    have count : ((g.census.set i (.started, child.starts + 1)).countP fun e => e.1.isStarted) + 0 =
        (g.census.countP fun e => e.1.isStarted) + 1 :=
      countP_census_set entry (.started, child.starts + 1)
    show g.pending + 1 = _ + 0
    rw [count, ok.counts]
    rfl
  · rw [census]
    intro e held
    rcases mem_or_eq_of_mem_set held with old | rfl
    · exact ok.once e old
    · show child.starts + 1 = 1
      rw [unstarted]
  · rw [census]
    intro next equal j e after there
    cases equal
    rcases census_set_cases entry there with ⟨rfl, -⟩ | ⟨-, old⟩
    · omega
    · exact ok.ahead i setup j e (by omega) old
  · rw [census]
    exact recorded
  · rw [census]
    intro _ j r n there before owed
    rcases census_set_cases entry there with ⟨-, equal⟩ | ⟨apart, old⟩
    · cases equal
    · exact ok.seen clean j r n old (visited_next before apart setup) owed
  · rw [census]
    intro _ j o n there before
    rcases census_set_cases entry there with ⟨-, equal⟩ | ⟨apart, old⟩
    · cases equal
    · exact ok.skipped clean j o n old (visited_next before apart setup)

theorem Sound.finish (waits : g.phase = .draining) (here : g.children[i]? = some child)
    (running : child.stage = .started) (r : Outcome T E) : (g.finish ask i child r).Sound none := by
  have entry := getElem?_census here
  rw [running] at entry
  let new : Child T E := { child with stage := .done r }
  have census : Group.census { g with children := g.children.set i new } =
      g.census.set i (.done r, child.starts) := census_set i new
  obtain ⟨recorded, unasked, trigger⟩ := ok.set_kept here (by rw [running]; nofun)
    (show new.stopRequested = child.stopRequested from rfl)
  have inside : i < g.children.length := (List.getElem?_eq_some_iff.mp here).1
  refine Sound.completed ask ?_ new (getElem?_set_self inside) rfl
  refine ⟨?_, ?_, ?_, ?_, ?_, ?_, ok.log, ok.caused, unasked, trigger, ok.failed⟩
  · rw [census]
    have count : ((g.census.set i (.done r, child.starts)).countP fun e => e.1.isStarted) + 1 =
        (g.census.countP fun e => e.1.isStarted) + 0 := countP_census_set entry (.done r, child.starts)
    show g.pending = _ + 1
    rw [count, ok.counts]
    rfl
  · rw [census]
    intro e held
    rcases mem_or_eq_of_mem_set held with old | rfl
    · exact ok.once e old
    · have started : child.starts = 1 := ok.once _ (mem_of_getElem? entry)
      exact started.le
  · intro next at_
    have at_ : g.phase = .starting next := at_
    rw [waits] at at_
    cases at_
  · rw [census]
    exact recorded
  · rw [census]
    intro clean j r' n there before owed
    rcases census_set_cases entry there with ⟨rfl, -⟩ | ⟨-, old⟩
    · exact absurd rfl owed
    · exact ok.seen clean j r' n old before (by simp)
  · rw [census]
    intro clean j o n there before
    rcases census_set_cases entry there with ⟨-, equal⟩ | ⟨-, old⟩
    · cases equal
    · exact ok.skipped clean j o n old before

theorem Sound.visit (setup : g.phase = .starting i) (here : g.children[i]? = some child) (failure : Option (Exn E)) :
    (g.visit ask i child failure).Sound none := by
  unfold Group.visit
  simp only
  split
  · rename_i r done
    exact ok.visit_done setup here done
  · rename_i observed fresh
    split
    · rename_i stopping
      exact ok.visit_skip setup here fresh stopping
    · split
      · exact ok.failSetup _ _
      · split
        · exact ok.failSetup _ _
        · exact ok.visit_start setup here fresh
  · rename_i running
    -- a job that is not visited yet was not started
    have entry := getElem?_census here
    have unstarted := ok.ahead i setup i _ (Nat.le_refl _) entry
    have started := ok.once _ (mem_of_getElem? entry)
    rw [running] at started
    have started : child.starts = 1 := started
    simp only at unstarted
    omega

theorem Sound.await (setup : g.phase = .starting g.children.length) :
    Sound { g with phase := .draining } none := by
  have clean : g.setupFailure = none := by
    by_contra failure
    exact ok.failed failure _ setup
  have before : ∀ {j : Nat} {e : Stage T E × Nat}, g.census[j]? = some e → visited g.phase j := by
    intro j e there next at_
    rw [setup] at at_
    cases at_
    have inside := (List.getElem?_eq_some_iff.mp there).1
    unfold census at inside
    rw [length_map] at inside
    exact inside
  refine ⟨ok.counts, ok.once, ?_, ok.recorded, ?_, ?_, ok.log, ok.caused, ok.unasked, ok.trigger, ?_⟩
  · intro next at_
    cases at_
  · intro _ j r n there _ owed
    exact ok.seen clean j r n there (before there) owed
  · intro _ j observed n there _
    exact ok.skipped clean j observed n there (before there)
  · intro _ next at_
    cases at_

theorem Sound.resume (waits : g.phase = .draining)
    (r : Except (Exn E) (List (Outcome T E))) : Sound { g with phase := .returned r } none := by
  have before : ∀ j, visited g.phase j := by
    intro j next at_
    rw [waits] at at_
    cases at_
  refine ⟨ok.counts, ok.once, ?_, ok.recorded, ?_, ?_, ok.log, ok.caused, ok.unasked, ok.trigger, ?_⟩
  · intro next at_
    cases at_
  · intro clean j r n there _ owed
    exact ok.seen clean j r n there (before j) owed
  · intro clean j observed n there _
    exact ok.skipped clean j observed n there (before j)
  · intro _ next at_
    cases at_

theorem Sound.stopParent : g.stopParent.Sound none := by
  refine Sound.stop (g := { g with parentStopped := true }) ?_ (Or.inl rfl)
  exact ⟨ok.counts, ok.once, ok.ahead, ok.recorded, ok.seen, ok.skipped, ok.log, fun _ => Or.inl rfl,
    ok.unasked, ok.trigger, ok.failed⟩

end

end Steps

section Runs
variable {jobs : List (Job T E)} {policy : P}

theorem ofJobs_fresh {children : List (Child T E)} (all : jobs.mapM Child.ofJob = some children) :
    children.length = jobs.length ∧ ∀ (i : Nat) (child : Child T E), children[i]? = some child →
      ∃ job, jobs[i]? = some job ∧ Child.ofJob job = some child := by
  induction jobs generalizing children with
  | nil =>
    cases all
    exact ⟨rfl, fun i child here => by cases here⟩
  | cons job rest ih =>
    rw [mapM_cons] at all
    cases first : Child.ofJob job with
    | none => simp [first] at all
    | some child =>
      cases others : rest.mapM Child.ofJob with
      | none => simp [first, others] at all
      | some tail =>
        have same : children = child :: tail := by simpa [first, others] using all.symm
        subst same
        obtain ⟨length, each⟩ := ih others
        refine ⟨by simp [length], ?_⟩
        intro i other here
        cases i with
        | zero =>
          cases here
          exact ⟨job, rfl, first⟩
        | succ i => exact each i other here

def Gives : Job T E → Stage T E × Nat → Prop
  | .empty, _ => False
  | .fresh observed, (stage, n) => (stage = .fresh observed ∧ n = 0) ∨ n = 1
  | .done r, (stage, n) => stage = .done r ∧ n = 0

structure Origin (jobs : List (Job T E)) (g : Group T E P) : Prop where
  length : g.setupFailure = none → g.children.length = jobs.length
  each : ∀ (i : Nat) (e : Stage T E × Nat), g.census[i]? = some e → ∃ job, jobs[i]? = some job ∧ Gives job e

theorem ofJobs_origin (jobs : List (Job T E)) (policy : P) : Origin jobs (ofJobs jobs policy) := by
  unfold ofJobs
  cases all : jobs.mapM Child.ofJob with
  | none => exact ⟨fun clean => by simp at clean, fun i e here => by simp [census] at here⟩
  | some children =>
    obtain ⟨length, each⟩ := ofJobs_fresh all
    refine ⟨fun _ => length, ?_⟩
    intro i e here
    obtain ⟨child, there, stage, starts⟩ := census_getElem? here
    obtain ⟨job, at_, made⟩ := each i child there
    refine ⟨job, at_, ?_⟩
    obtain ⟨s, n⟩ := e
    simp only at stage starts
    subst stage starts
    cases job with
    | empty => cases made
    | fresh observed =>
      cases made
      exact Or.inl ⟨rfl, rfl⟩
    | done r =>
      cases made
      exact ⟨rfl, rfl⟩

theorem ofJobs_sound (jobs : List (Job T E)) (policy : P) : (ofJobs jobs policy).Sound none := by
  unfold ofJobs
  cases all : jobs.mapM Child.ofJob with
  | none =>
    refine ⟨rfl, ?_, ?_, ?_, ?_, ?_, ⟨prefix_rfl, fun _ => ⟨rfl, ?_⟩, ?_⟩, ?_, ?_, ?_, ?_⟩
    · simp [census]
    · intro next at_
      cases at_
    · simp
    · intro clean
      cases clean
    · intro clean
      cases clean
    · simp
    · simp
    · intro stopping
      cases stopping
    · simp
    · simp
    · intro _ next at_
      cases at_
  | some children =>
    obtain ⟨-, each⟩ := ofJobs_fresh all
    have new : ∀ child ∈ children, child.starts = 0 ∧ child.stopRequested = false ∧
        child.stage.isStarted = false := by
      intro child held
      obtain ⟨i, here⟩ := mem_iff_getElem?.mp held
      obtain ⟨job, -, made⟩ := each i child here
      cases job with
      | empty => cases made
      | fresh observed =>
        cases made
        exact ⟨rfl, rfl, rfl⟩
      | done r =>
        cases made
        exact ⟨rfl, rfl, rfl⟩
    have entries : ∀ e ∈ children.map fun c => (c.stage, c.starts), e.2 = 0 ∧ e.1.isStarted = false := by
      intro e held
      obtain ⟨child, inside, rfl⟩ := mem_map.mp held
      exact ⟨(new child inside).1, (new child inside).2.2⟩
    have unvisited : ∀ {j : Nat}, ¬ visited (.starting 0 : Phase T E) j := by
      intro j before
      have bound := before 0 rfl
      omega
    refine ⟨?_, ?_, ?_, ?_, ?_, ?_, ⟨prefix_rfl, fun _ => ⟨rfl, ?_⟩, ?_⟩, ?_, ?_, ?_, ?_⟩
    · have none_ : ((children.map fun c => (c.stage, c.starts)).countP fun e => e.1.isStarted) = 0 := by
        rw [countP_eq_zero]
        intro e held running
        rw [(entries e held).2] at running
        cases running
      exact none_.symm
    · intro e held
      obtain ⟨unstarted, still⟩ := entries e held
      obtain ⟨stage, n⟩ := e
      cases stage with
      | fresh observed => exact unstarted
      | started => cases still
      | done r => exact unstarted.le.trans (Nat.zero_le 1)
    · intro next at_ j e after there
      exact (entries e (mem_of_getElem? there)).1
    · simp
    · intro _ j r n there before
      exact absurd before unvisited
    · intro _ j observed n there before
      exact absurd before unvisited
    · simp
    · simp
    · intro stopping
      cases stopping
    · intro _ child held
      exact (new child held).2.1
    · simp
    · intro failure
      exact absurd rfl failure

theorem run_sound (run : Run ask jobs policy g) : g.Sound none := by
  induction run with
  | start => exact ofJobs_sound jobs policy
  | step run step ih =>
    cases step with
    | stopParent active => exact ih.stopParent
    | visit i child failure setup here => exact ih.visit setup here failure
    | await setup => exact ih.await setup
    | finish i child r waits here running => exact ih.finish waits here running r
    | resume waits arrived => exact ih.resume waits _

theorem completed_frame (ask : P → Completion → Bool × P) (g : Group T E P) (c : Completion) :
    (g.completed ask c).census = g.census ∧ (g.completed ask c).phase = g.phase ∧
      (g.completed ask c).setupFailure = g.setupFailure := by
  unfold Group.completed
  simp only
  split
  · exact ⟨rfl, rfl, rfl⟩
  · split
    · exact ⟨census_stop g.children, rfl, rfl⟩
    · exact ⟨rfl, rfl, rfl⟩

theorem completed_consults (ask : P → Completion → Bool × P) (g : Group T E P) (c : Completion) :
    ((g.completed ask c).consulted = g.consulted ∧ (g.completed ask c).policy = g.policy) ∨
      (g.stopping = false ∧ (g.completed ask c).consulted = g.consulted ++ [(c, (ask g.policy c).1)] ∧
        (g.completed ask c).policy = (ask g.policy c).2) := by
  unfold Group.completed
  simp only
  split
  · exact Or.inl ⟨rfl, rfl⟩
  · rename_i running
    right
    refine ⟨by simpa using running, ?_⟩
    split <;> exact ⟨rfl, rfl⟩

theorem step_frame {g' : Group T E P} (step : Step ask g g') : (g'.census = g.census ∨
      (∃ i observed n, g.census[i]? = some (.fresh observed, n) ∧ g'.census = g.census.set i (.started, n + 1)) ∨
      ∃ i r n, g.census[i]? = some (.started, n) ∧ g'.census = g.census.set i (.done r, n)) ∧
    (g'.setupFailure = none → g.setupFailure = none) ∧
    (∀ r, g'.phase = .returned r → g'.result = r ∧ g'.pending = 0) := by
  cases step with
  | stopParent active =>
    exact ⟨Or.inl (census_stop g.children), id, fun r at_ => absurd at_ (active r)⟩
  | visit i child failure setup here =>
    have entry := getElem?_census here
    unfold Group.visit
    simp only
    split
    · rename_i r done
      obtain ⟨census, phase, clean⟩ := completed_frame ask
        { g with phase := .starting (i + 1), pending := g.pending + 1 } ⟨i, r.failed⟩
      refine ⟨Or.inl census, fun none_ => clean.symm.trans none_, ?_⟩
      intro r' at_
      rw [phase] at at_
      cases at_
    · rename_i observed fresh
      rw [fresh] at entry
      split
      · exact ⟨Or.inl rfl, id, fun r at_ => by cases at_⟩
      · split
        · exact ⟨Or.inl (census_stop g.children), (fun none_ => by cases none_), (fun r at_ => by cases at_)⟩
        · split
          · exact ⟨Or.inl (census_stop g.children), (fun none_ => by cases none_), (fun r at_ => by cases at_)⟩
          · refine ⟨Or.inr (Or.inl ⟨i, observed, child.starts, entry, ?_⟩), id, fun r at_ => by cases at_⟩
            exact census_set i { child with stage := .started, starts := child.starts + 1 }
    · exact ⟨Or.inl rfl, id, fun r at_ => by cases at_⟩
  | await setup => exact ⟨Or.inl rfl, id, fun r at_ => by cases at_⟩
  | finish i child r waits here running =>
    have entry := getElem?_census here
    rw [running] at entry
    obtain ⟨census, phase, clean⟩ := completed_frame ask
      { g with children := g.children.set i { child with stage := .done r } } ⟨i, r.failed⟩
    refine ⟨Or.inr (Or.inr ⟨i, r, child.starts, entry, ?_⟩), fun none_ => clean.symm.trans none_, ?_⟩
    · exact census.trans (census_set i { child with stage := .done r })
    · intro r' at_
      have at_ : (Group.completed ask
        { g with children := g.children.set i { child with stage := .done r } } ⟨i, r.failed⟩).phase = _ := at_
      rw [phase] at at_
      have at_ : g.phase = .returned r' := at_
      rw [waits] at at_
      cases at_
  | resume waits arrived =>
    refine ⟨Or.inl rfl, id, ?_⟩
    intro r at_
    cases at_
    exact ⟨rfl, arrived⟩

theorem step_consults {g' : Group T E P} (step : Step ask g g') : (g'.consulted = g.consulted ∧ g'.policy = g.policy) ∨
      ∃ c, g.stopping = false ∧ g'.consulted = g.consulted ++ [(c, (ask g.policy c).1)] ∧
        g'.policy = (ask g.policy c).2 := by
  cases step with
  | stopParent active => exact Or.inl ⟨rfl, rfl⟩
  | visit i child failure setup here =>
    unfold Group.visit
    simp only
    split
    · rename_i r done
      rcases completed_consults ask { g with phase := .starting (i + 1), pending := g.pending + 1 }
        ⟨i, r.failed⟩ with same | asked
      · exact Or.inl same
      · exact Or.inr ⟨_, asked⟩
    · split
      · exact Or.inl ⟨rfl, rfl⟩
      · split
        · exact Or.inl ⟨rfl, rfl⟩
        · split <;> exact Or.inl ⟨rfl, rfl⟩
    · exact Or.inl ⟨rfl, rfl⟩
  | await setup => exact Or.inl ⟨rfl, rfl⟩
  | finish i child r waits here running =>
    rcases completed_consults ask
      { g with children := g.children.set i { child with stage := .done r } } ⟨i, r.failed⟩ with same | asked
    · exact Or.inl same
    · exact Or.inr ⟨_, asked⟩
  | resume waits arrived => exact Or.inl ⟨rfl, rfl⟩

theorem Origin.set {g' : Group T E P} (origin : Origin jobs g) {i : Nat} {old new : Stage T E × Nat}
    (here : g.census[i]? = some old) (changed : g'.census = g.census.set i new)
    (failure : g'.setupFailure = none → g.setupFailure = none) (gives : ∀ job, Gives job old → Gives job new) :
    Origin jobs g' := by
  have size : ∀ g : Group T E P, g.children.length = g.census.length := by
    intro g
    unfold Group.census
    rw [length_map]
  refine ⟨fun clean => ?_, ?_⟩
  · rw [size, changed, length_set, ← size]
    exact origin.length (failure clean)
  · rw [changed]
    intro j e there
    rcases census_set_cases here there with ⟨rfl, rfl⟩ | ⟨-, old⟩
    · obtain ⟨job, at_, given⟩ := origin.each j _ here
      exact ⟨job, at_, gives job given⟩
    · exact origin.each j e old

theorem Origin.step {g' : Group T E P} (origin : Origin jobs g) (ok : g.Sound none)
    (step : Step ask g g') : Origin jobs g' := by
  obtain ⟨census, failure, -⟩ := step_frame step
  rcases census with same | ⟨i, observed, n, here, changed⟩ | ⟨i, r, n, here, changed⟩
  · refine ⟨fun clean => ?_, ?_⟩
    · have size := congrArg List.length same
      unfold Group.census at size
      rw [length_map, length_map] at size
      rw [size]
      exact origin.length (failure clean)
    · rw [same]
      exact origin.each
  · refine origin.set here changed failure fun job gives => ?_
    cases job with
    | empty => exact gives
    | fresh o =>
      have unstarted : n = 0 := ok.once _ (mem_of_getElem? here)
      exact Or.inr (by rw [unstarted])
    | done r => cases gives.1
  · refine origin.set here changed failure fun job gives => ?_
    cases job with
    | empty => exact gives
    | fresh o =>
      rcases gives with ⟨never, -⟩ | once
      · cases never
      · exact Or.inr once
    | done r => cases gives.1

theorem run_origin (run : Run ask jobs policy g) : Origin jobs g := by
  induction run with
  | start => exact ofJobs_origin jobs policy
  | step run step ih => exact ih.step (run_sound run) step

theorem run_answered (run : Run ask jobs policy g) {r : Except (Exn E) (List (Outcome T E))}
    (returned : g.phase = .returned r) : g.result = r ∧ g.pending = 0 := by
  cases run with
  | start =>
    revert returned
    unfold ofJobs
    cases jobs.mapM Child.ofJob with
    | none =>
      intro returned
      cases returned
      exact ⟨rfl, rfl⟩
    | some children =>
      intro returned
      cases returned
  | step run step => exact (step_frame step).2.2 r returned

theorem run_drained (run : Run ask jobs policy g) {r : Except (Exn E) (List (Outcome T E))}
    (returned : g.phase = .returned r) : ∀ child ∈ g.children, child.stage.isStarted = false := by
  have idle := (run_answered run returned).2
  rw [(run_sound run).counts] at idle
  have none_ : (g.census.countP fun e => e.1.isStarted) = 0 := Nat.eq_zero_of_add_eq_zero_right idle
  rw [countP_eq_zero] at none_
  intro child held
  have apart := none_ (child.stage, child.starts) (mem_map.mpr ⟨child, held, rfl⟩)
  simpa using apart

end Runs

section First
variable {jobs : List (Job T E)} {policy : Completion → Bool} {g : Group T E (Option Nat)}

/-- `record_first` has the position of the completion that asked for the stop. -/
structure Recorded (policy : Completion → Bool) (g : Group T E (Option Nat)) : Prop where
  answers : ∀ c answer, (c, answer) ∈ g.consulted → answer = policy c
  first : ∀ c, (c, true) ∈ g.consulted → g.policy = some c.index
  untouched : (∀ c, (c, true) ∉ g.consulted) → g.policy = none

theorem Recorded.step {g' : Group T E (Option Nat)} (recorded : Recorded policy g) (ok : g.Sound none)
    (step : Step (recordFirst policy) g g') : Recorded policy g' := by
  rcases step_consults step with ⟨same, kept⟩ | ⟨c, running, asked, kept⟩
  · refine ⟨?_, ?_, ?_⟩
    · rw [same]
      exact recorded.answers
    · rw [same, kept]
      exact recorded.first
    · rw [same, kept]
      exact recorded.untouched
  · have log := ok.log
    rw [running] at log
    have untriggered : ∀ c, (c, true) ∉ g.consulted := by
      intro c triggered
      cases (log.whole rfl).2 _ triggered
    have before := recorded.untouched untriggered
    unfold recordFirst at asked kept
    have consulted : g'.consulted = g.consulted ++ [(c, policy c)] := by
      rw [asked]
      cases policy c <;> rfl
    refine ⟨?_, ?_, ?_⟩
    · rw [consulted]
      intro d b held
      rcases mem_append.mp held with old | new
      · exact recorded.answers d b old
      · cases mem_singleton.mp new
        rfl
    · rw [consulted]
      intro d held
      rcases mem_append.mp held with old | new
      · exact absurd old (untriggered d)
      · obtain ⟨rfl, answer⟩ := Prod.mk.inj (mem_singleton.mp new)
        rw [kept, ← answer]
        rfl
    · rw [consulted]
      intro none_
      cases answer : policy c with
      | false =>
        rw [kept, answer, before]
        rfl
      | true =>
        rw [answer] at none_
        exact absurd (mem_append_right _ (mem_singleton.mpr rfl)) (none_ c)

section
variable (run : Run (recordFirst policy) jobs none g)
include run

theorem run_recorded : Recorded policy g := by
  induction run with
  | start =>
    unfold ofJobs
    cases jobs.mapM Child.ofJob <;> exact ⟨by simp, by simp, fun _ => rfl⟩
  | step run step ih => exact ih.step (run_sound run) step

theorem run_trigger {c : Completion}
    (triggered : (c, true) ∈ g.consulted) : policy c = true ∧ g.policy = some c.index ∧
      ∃ child r, g.children[c.index]? = some child ∧ child.stage = .done r ∧ r.failed = c.failed ∧
        child.stopRequested = false := by
  have ok := run_sound run
  have recorded := run_recorded run
  have completion : c ∈ g.completions :=
    ok.log.prefixed.subset (mem_map.mpr ⟨(c, true), triggered, rfl⟩)
  obtain ⟨r, n, entry, failed⟩ := ok.recorded c completion
  obtain ⟨child, here, stage, -⟩ := census_getElem? entry
  exact ⟨(recorded.answers c true triggered).symm, recorded.first c triggered, child, r, here, stage,
    failed, ok.trigger c triggered child here⟩

theorem run_unstopped {r : Except (Exn E) (List (Outcome T E))}
    (returned : g.phase = .returned r) (clean : g.setupFailure = none) (alone : g.parentStopped = false)
    (untriggered : ∀ c, (c, true) ∉ g.consulted) : ∀ (i : Nat) (child : Child T E), g.children[i]? = some child → ∃ x,
    child.stage = .done x ∧ policy ⟨i, x.failed⟩ = false := by
  have ok := run_sound run
  have running : g.stopping = false := by
    by_contra stopping
    rcases ok.caused (by simpa using stopping) with parent | failure | ⟨c, triggered⟩
    · rw [alone] at parent
      cases parent
    · exact failure clean
    · exact untriggered c triggered
  intro i child here
  have entry := getElem?_census here
  have before : visited g.phase i := by
    intro next at_
    rw [returned] at at_
    cases at_
  cases stage : child.stage with
  | started =>
    have drained := run_drained run returned child (mem_of_getElem? here)
    rw [stage] at drained
    cases drained
  | fresh observed =>
    rw [stage] at entry
    have stopping := ok.skipped clean i observed _ entry before
    rw [running] at stopping
    cases stopping
  | done x =>
    rw [stage] at entry
    have completion := ok.seen clean i x _ entry before (by simp)
    refine ⟨x, rfl, ?_⟩
    have log := ok.log
    rw [running] at log
    rw [← (log.whole rfl).1] at completion
    obtain ⟨⟨c, answer⟩, asked, rfl⟩ := mem_map.mp completion
    have unstopped := (log.whole rfl).2 _ asked
    rw [← (run_recorded run).answers _ answer asked]
    exact unstopped

end

theorem getElem?_outcomes {i : Nat} {child : Child T E} (here : g.children[i]? = some child) :
    (g.children.map Child.extractOutcome)[i]? = some child.extractOutcome := by
  rw [getElem?_map, here]
  rfl

theorem result_outcomes (clean : g.setupFailure = none) (alone : g.parentStopped = false) :
    g.result = .ok (g.children.map Child.extractOutcome) := by
  unfold Group.result
  simp [clean, alone]

theorem mapM_values {outcomes : List (Outcome T E)} (all : ∀ x ∈ outcomes, x.failed = false) :
    ∃ values : List T, (outcomes.mapM id : Except (Exn E) (List T)) = .ok values ∧ outcomes = values.map .ok := by
  induction outcomes with
  | nil => exact ⟨[], rfl, rfl⟩
  | cons x rest ih =>
    obtain ⟨values, taken, same⟩ := ih fun y held => all y (mem_cons_of_mem _ held)
    cases x with
    | error e => cases all _ (mem_cons_self ..)
    | ok v =>
      refine ⟨v :: values, ?_, by rw [map_cons, ← same]⟩
      rw [mapM_cons, taken]
      rfl

end First

/-- `when_all` gives the failure that triggered the stop, of a job that was not asked to stop, or the
values of all its jobs. -/
theorem whenAll_spec {T E : Type} {jobs : List (Job T E)} {g : Group T E (Option Nat)}
    (run : Run (recordFirst failFastGroup) jobs none g) {r : Except (Exn E) (List (Outcome T E))}
    (returned : g.phase = .returned r) (clean : g.setupFailure = none) (alone : g.parentStopped = false) :
    (∀ c, (c, true) ∈ g.consulted → ∃ child e, g.children[c.index]? = some child ∧
      child.stage = .done (.error e) ∧ child.stopRequested = false ∧ whenAll g = .error e) ∧
    ((∀ c, (c, true) ∉ g.consulted) → ∃ values, whenAll g = .ok values ∧
      g.children.map Child.extractOutcome = values.map .ok) := by
  refine ⟨?_, ?_⟩
  · intro c triggered
    obtain ⟨failed, first, child, x, here, stage, same, unasked⟩ := run_trigger run triggered
    cases x with
    | ok v =>
      have failed : c.failed = true := failed
      rw [← same] at failed
      cases failed
    | error e =>
      refine ⟨child, e, here, stage, unasked, ?_⟩
      have at_ := getElem?_outcomes here
      have outcome : child.extractOutcome = .error e := by
        unfold Child.extractOutcome
        rw [stage]
      rw [outcome] at at_
      unfold whenAll
      rw [result_outcomes clean alone]
      simp only [first, Option.bind_some, at_]
  · intro untriggered
    have all := run_unstopped run returned clean alone untriggered
    have values : ∀ x ∈ g.children.map Child.extractOutcome, x.failed = false := by
      intro x held
      obtain ⟨child, inside, rfl⟩ := mem_map.mp held
      obtain ⟨i, here⟩ := mem_iff_getElem?.mp inside
      obtain ⟨x, stage, quiet⟩ := all i child here
      unfold Child.extractOutcome
      rw [stage]
      exact quiet
    obtain ⟨vs, taken, same⟩ := mapM_values values
    refine ⟨vs, ?_, same⟩
    unfold whenAll
    rw [result_outcomes clean alone, (run_recorded run).untouched untriggered]
    exact taken

theorem waitAny_spec {T E : Type} {jobs : List (Job T E)} {g : Group T E (Option Nat)}
    (run : Run (recordFirst firstSuccessGroup) jobs none g) (clean : g.setupFailure = none)
    (alone : g.parentStopped = false) {c : Completion} (triggered : (c, true) ∈ g.consulted) :
    ∃ child v, g.children[c.index]? = some child ∧ child.stage = .done (.ok v) ∧
      child.stopRequested = false ∧ waitAny g = .ok v := by
  obtain ⟨succeeded, first, child, x, here, stage, same, unasked⟩ := run_trigger run triggered
  cases x with
  | error e =>
    have succeeded : (!c.failed) = true := succeeded
    rw [← same] at succeeded
    cases succeeded
  | ok v =>
    refine ⟨child, v, here, stage, unasked, ?_⟩
    have at_ := getElem?_outcomes here
    have outcome : child.extractOutcome = .ok v := by
      unfold Child.extractOutcome
      rw [stage]
    rw [outcome] at at_
    unfold waitAny
    rw [result_outcomes clean alone]
    simp only [first, Option.bind_some, at_]

/-- Groups settle completely: in every run no job is started twice; the policy is asked about the
completions in their order, about all of them until the group stops, and never again after an answer
that asks for the stop; a group that has returned left no started job unfinished, settled the jobs
it never started as cancelled, threw what kept a job from starting if something did, and otherwise
`operation_cancelled` if its parent was stopped. `when_all` and `wait_any` then give the failure or
the value that triggered the stop, never one of a job that the stop had reached. -/
theorem groups_settle {T E : Type} :
    (∀ (P : Type) (ask : P → Completion → Bool × P) (jobs : List (Job T E)) (policy : P)
      (g : Group T E P), Run ask jobs policy g → (∀ child ∈ g.children, child.starts ≤ 1) ∧
      (g.consulted.map Prod.fst <+: g.completions ∧ (∀ q ∈ g.consulted.dropLast, q.2 = false) ∧
        (g.stopping = false → g.consulted.map Prod.fst = g.completions)) ∧ ∀ r, g.phase = .returned r →
        (∀ child ∈ g.children, child.starts = 1 → ∃ x, child.stage = .done x) ∧
        (∀ e, g.setupFailure = some e → r = .error e) ∧
        (g.setupFailure = none → g.parentStopped = true → r = .error .operationCancelled) ∧
        ∀ outcomes, r = .ok outcomes → outcomes.length = jobs.length ∧
          (∀ (i : Nat) (child : Child T E), g.children[i]? = some child →
            (∀ x, child.stage = .done x → outcomes[i]? = some x) ∧
            ∀ observed, jobs[i]? = some (.fresh observed) → child.starts = 0 →
              outcomes[i]? = some (.error .operationCancelled))) ∧
    (∀ (jobs : List (Job T E)) (g : Group T E (Option Nat)),
      Run (recordFirst failFastGroup) jobs none g → ∀ r, g.phase = .returned r →
      g.setupFailure = none → g.parentStopped = false →
      (∀ c, (c, true) ∈ g.consulted → ∃ child e, g.children[c.index]? = some child ∧
        child.stage = .done (.error e) ∧ child.stopRequested = false ∧ whenAll g = .error e) ∧
      ((∀ c, (c, true) ∉ g.consulted) → ∃ values, whenAll g = .ok values ∧
        g.children.map Child.extractOutcome = values.map .ok)) ∧ ∀ (jobs : List (Job T E)) (g : Group T E (Option Nat)),
      Run (recordFirst firstSuccessGroup) jobs none g → ∀ r, g.phase = .returned r →
      g.setupFailure = none → g.parentStopped = false →
      ∀ c, (c, true) ∈ g.consulted → ∃ child v, g.children[c.index]? = some child ∧
        child.stage = .done (.ok v) ∧ child.stopRequested = false ∧ waitAny g = .ok v := by
  refine ⟨?_, ?_, ?_⟩
  · intro P ask jobs policy g run
    have ok := run_sound run
    have entry : ∀ child ∈ g.children, child.stage.Allows child.starts := fun child held =>
      ok.once (child.stage, child.starts) (mem_map.mpr ⟨child, held, rfl⟩)
    refine ⟨?_, ⟨ok.log.prefixed, ok.log.last, fun open_ => (ok.log.whole open_).1⟩, ?_⟩
    · intro child held
      have allowed := entry child held
      cases stage : child.stage <;> rw [stage] at allowed <;> simp only [Stage.Allows] at allowed <;> omega
    · intro r returned
      have answer := (run_answered run returned).1
      refine ⟨?_, ?_, ?_, ?_⟩
      · intro child held once
        have allowed := entry child held
        cases stage : child.stage with
        | fresh observed =>
          rw [stage] at allowed
          have never : child.starts = 0 := allowed
          omega
        | started =>
          have drained := run_drained run returned child held
          rw [stage] at drained
          cases drained
        | done x => exact ⟨x, rfl⟩
      · intro e failure
        rw [← answer]
        unfold Group.result
        rw [failure]
      · intro clean parent
        rw [← answer]
        unfold Group.result
        rw [clean]
        simp [parent]
      · rintro outcomes rfl
        have clean : g.setupFailure = none := by
          cases failure : g.setupFailure with
          | none => rfl
          | some e =>
            unfold Group.result at answer
            rw [failure] at answer
            cases answer
        have same : outcomes = g.children.map Child.extractOutcome := by
          unfold Group.result at answer
          rw [clean] at answer
          simp only at answer
          split at answer
          · cases answer
          · exact (Except.ok.inj answer).symm
        subst same
        refine ⟨by rw [length_map]; exact (run_origin run).length clean, ?_⟩
        intro i child here
        have at_ : (g.children.map Child.extractOutcome)[i]? = some child.extractOutcome := by
          rw [getElem?_map, here]
          rfl
        refine ⟨?_, ?_⟩
        · intro x stage
          rw [at_]
          unfold Child.extractOutcome
          rw [stage]
        · intro observed job never
          obtain ⟨origin, held, gives⟩ := (run_origin run).each i _ (getElem?_census here)
          rw [job] at held
          cases held
          have fresh : child.stage = .fresh observed := by
            rcases gives with ⟨fresh, -⟩ | once
            · exact fresh
            · omega
          rw [at_]
          unfold Child.extractOutcome
          rw [fresh]
  · intro jobs g run r returned clean alone
    exact whenAll_spec run returned clean alone
  · intro jobs g run r _ clean alone c triggered
    exact waitAny_spec run clean alone triggered

section Example

/-- One job starts, the other cannot be started, and the parent is stopped while the group drains. -/
def cramped : Group Nat Unit Unit :=
  let ask : Unit → Completion → Bool × Unit := fun _ _ => (false, ())
  let g := ofJobs [.fresh false, .fresh false] ()
  let g := g.visit ask 0 { stage := .fresh false } none
  let g := g.visit ask 1 { stage := .fresh false } (some (.runtimeError "nxtrt deck task table is full"))
  let g := g.stopParent
  let g := g.finish ask 0 { stage := .started, starts := 1, stopRequested := true } (.ok 3)
  { g with phase := .returned g.result }

theorem cramped_run : Run (fun _ _ => (false, ())) [.fresh false, .fresh false] () cramped := by
  refine .step (.step (.step (.step (.step .start (.visit _ 0 { stage := .fresh false } none rfl rfl))
    (.visit _ 1 { stage := .fresh false } (some (.runtimeError "nxtrt deck task table is full")) rfl rfl))
    (.stopParent _ ?_))
    (.finish _ 0 { stage := .started, starts := 1, stopRequested := true } (.ok 3) rfl rfl rfl))
    (.resume _ rfl rfl)
  intro r at_
  cases at_

/-- The parent was stopped, and the group throws that a job could not be started. -/
theorem stopped_parent_other_error : Run (fun _ _ => (false, ())) [.fresh false, .fresh false] () cramped ∧
      cramped.parentStopped = true ∧
      cramped.phase = .returned (.error (.runtimeError "nxtrt deck task table is full")) :=
  ⟨cramped_run, rfl, rfl⟩

/-- Of two started jobs the second ends first, and the policy stops the other. -/
def raced (policy : Completion → Bool) (first second : Outcome Nat Unit) : Group Nat Unit (Option Nat) :=
  let ask := recordFirst policy
  let g := ofJobs [.fresh false, .fresh false] none
  let g := g.visit ask 0 { stage := .fresh false } none
  let g := g.visit ask 1 { stage := .fresh false } none
  let g := { g with phase := .draining }
  let g := g.finish ask 1 { stage := .started, starts := 1 } first
  let g := g.finish ask 0 { stage := .started, starts := 1, stopRequested := true } second
  { g with phase := .returned g.result }

def failedRace : Group Nat Unit (Option Nat) := raced failFastGroup (.error (.thrown ())) (.ok 3)

def wonRace : Group Nat Unit (Option Nat) := raced firstSuccessGroup (.ok 5) (.error .operationCancelled)

theorem raced_run : Run (recordFirst failFastGroup) [.fresh false, .fresh false] none failedRace ∧
    Run (recordFirst firstSuccessGroup) [.fresh false, .fresh false] none wonRace := by
  constructor
  all_goals exact .step (.step (.step (.step (.step (.step .start
    (.visit _ 0 { stage := .fresh false } none rfl rfl)) (.visit _ 1 { stage := .fresh false } none rfl rfl))
    (.await _ rfl)) (.finish _ 1 { stage := .started, starts := 1 } _ rfl rfl rfl))
    (.finish _ 0 { stage := .started, starts := 1, stopRequested := true } _ rfl rfl rfl)) (.resume _ rfl rfl)

theorem groups_settle_cramped : (∀ child ∈ cramped.children, child.starts ≤ 1) ∧
    (∃ child e, failedRace.children[1]? = some child ∧ child.stage = .done (.error e) ∧
      child.stopRequested = false ∧ whenAll failedRace = .error e) ∧
    ∃ child v, wonRace.children[1]? = some child ∧ child.stage = .done (.ok v) ∧
      child.stopRequested = false ∧ waitAny wonRace = .ok v :=
  ⟨(groups_settle.1 Unit _ _ () cramped cramped_run).1,
    (groups_settle.2.1 _ failedRace raced_run.1 _ rfl rfl rfl).1 ⟨1, true⟩ (mem_singleton.mpr rfl),
    groups_settle.2.2 _ wonRace raced_run.2 _ rfl rfl rfl ⟨1, false⟩ (mem_singleton.mpr rfl)⟩

end Example

end Group

end Nxt.Runtime

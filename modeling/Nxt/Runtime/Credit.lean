import Nxt.Runtime.Blocking

/- What holds of the blocking pool in every state: each call is where its story says, credit is
   counted and handed on, calls reach the workers in the order of admission, and a `close` that
   returned has left nothing behind. -/
namespace Nxt.Runtime.Blocking
open List
variable {V E : Type}

def Worker.holds : Worker → Option (Nat × Stage)
  | .taking j => some (j, .taken)
  | .calling j => some (j, .calling)
  | .finishing j => some (j, .finishing)
  | _ => none

def Turn.closes : Turn → Bool
  | .stopping _ _ | .closing | .joining => true
  | _ => false

namespace Pool
variable {s s' : Pool V E} {j w : Nat} {b d : Job V E}

def stage (s : Pool V E) (j : Nat) : Option Stage := s.jobs[j]?.map Job.stage

theorem stage_at (at_ : s.jobs[j]? = some b) : s.stage j = some b.stage := by
  unfold stage
  rw [at_]
  rfl

theorem put_at (at_ : s.jobs[j]? = some b) (i : Nat) : (s.put j d).jobs[i]? = if i = j then some d else s.jobs[i]? := by
  obtain ⟨inside, _⟩ := List.getElem?_eq_some_iff.mp at_
  simp only [put, getElem?_set, inside, if_true, eq_comm]

theorem put_stage (at_ : s.jobs[j]? = some b) (i : Nat) :
    (s.put j d).stage i = if i = j then some d.stage else s.stage i := by
  unfold stage
  rw [put_at at_]
  split <;> rfl

theorem setWorker_at {x' : Worker} {w' : Nat} {y : Worker} (at_ : (s.setWorker w x').workers[w']? = some y) :
    (w = w' ∧ y = x') ∨ (w ≠ w' ∧ s.workers[w']? = some y) := by
  simp only [setWorker, getElem?_set] at at_
  split at at_
  · next same =>
    split at at_
    · cases at_
      exact .inl ⟨same, rfl⟩
    · cases at_
  · next other => exact .inr ⟨other, at_⟩

/-- Every call is in one place, and that place is the one its story tells. -/
structure Sound (s : Pool V E) : Prop where
  jobs : ∀ (j : Nat) (b : Job V E), s.jobs[j]? = some b → b.Sound
  queue : ∀ j, j ∈ s.queue ↔ s.stage j = some .queued
  once : s.queue.Nodup
  held : ∀ (w : Nat) (x : Worker) (j : Nat) (st : Stage), s.workers[w]? = some x → x.holds = some (j, st) → s.stage j = some st
  apart : ∀ (w w' : Nat) (x x' : Worker) (j : Nat) (st st' : Stage), s.workers[w]? = some x →
    s.workers[w']? = some x' → x.holds = some (j, st) → x'.holds = some (j, st') → w = w'

def Busy (st : Option Stage) : Prop := st ≠ none ∧ st ≠ some .fresh ∧ st ≠ some .done ∧ st ≠ some .ended

theorem Sound.idle (sound : s.Sound) (jobs : ∀ (j : Nat) (b : Job V E), s'.jobs[j]? = some b → b.Sound)
    (stage : ∀ j, s'.stage j = s.stage j ∨ (¬Busy (s.stage j) ∧ ¬Busy (s'.stage j)))
    (queue : s'.queue = s.queue) (workers : s'.workers = s.workers) : s'.Sound where
  jobs := jobs
  queue j := by
    rw [queue, sound.queue]
    obtain same | ⟨old, new⟩ := stage j
    · rw [same]
    · constructor
      · intro busy
        exact absurd (by simp [Busy, busy]) old
      · intro busy
        exact absurd (by simp [Busy, busy]) new
  once := queue ▸ sound.once
  held w x j st at_ holds := by
    rw [workers] at at_
    have held := sound.held w x j st at_ holds
    obtain same | ⟨old, _⟩ := stage j
    · rw [same, held]
    · refine absurd ?_ old
      rw [held]
      cases x <;> cases holds <;> simp [Busy]
  apart := workers ▸ sound.apart

theorem put_sound (sound : s.Sound) (at_ : s.jobs[j]? = some b) (new : d.Sound) :
    ∀ (i : Nat) (c : Job V E), (s.put j d).jobs[i]? = some c → c.Sound := by
  intro i c at_i
  rw [put_at at_] at at_i
  split at at_i
  · cases at_i
    exact new
  · exact sound.jobs i c at_i

theorem Sound.put (sound : s.Sound) (at_ : s.jobs[j]? = some b) (new : d.Sound)
    (stage : d.stage = b.stage ∨ (¬Busy (some b.stage) ∧ ¬Busy (some d.stage))) : (s.put j d).Sound := by
  refine sound.idle (put_sound sound at_ new) ?_ rfl rfl
  intro i
  rw [put_stage at_]
  split
  · next same =>
    subst same
    rw [stage_at at_]
    obtain same | idle := stage
    · exact .inl (by rw [same])
    · exact .inr idle
  · exact .inl rfl

theorem Sound.carry {x x' : Worker} {st : Stage} (sound : s.Sound) (worker : s.workers[w]? = some x)
    (holds : x.holds = some (j, st)) (at_ : s.jobs[j]? = some b) (new : d.Sound)
    (unqueued : d.stage ≠ .queued) (next : ∀ i st', x'.holds = some (i, st') → i = j ∧ d.stage = st') :
    ((s.put j d).setWorker w x').Sound where
  jobs := put_sound sound at_ new
  queue i := by
    show i ∈ s.queue ↔ (s.put j d).stage i = some .queued
    rw [put_stage at_, sound.queue]
    split
    · next same =>
      subst same
      have old := sound.held w x i st worker holds
      rw [old]
      cases x <;> cases holds <;> simp [unqueued]
    · rfl
  once := sound.once
  held w' y i st' worker' holds' := by
    show (s.put j d).stage i = some st'
    rw [put_stage at_]
    obtain ⟨_, rfl⟩ | ⟨other, worker'⟩ := setWorker_at worker'
    · obtain ⟨rfl, stage⟩ := next i st' holds'
      rw [if_pos rfl, stage]
    · have differ : i ≠ j := by
        rintro rfl
        exact other (sound.apart w w' x y i st st' worker worker' holds holds')
      rw [if_neg differ]
      exact sound.held w' y i st' worker' holds'
  apart w₁ w₂ y₁ y₂ i st₁ st₂ worker₁ worker₂ holds₁ holds₂ := by
    obtain ⟨same₁, rfl⟩ | ⟨other₁, old₁⟩ := setWorker_at worker₁ <;>
      obtain ⟨same₂, rfl⟩ | ⟨other₂, old₂⟩ := setWorker_at worker₂
    · rw [← same₁, ← same₂]
    · obtain ⟨rfl, _⟩ := next i st₁ holds₁
      exact absurd (sound.apart w w₂ x y₂ i st st₂ worker old₂ holds holds₂) other₂
    · obtain ⟨rfl, _⟩ := next i st₂ holds₂
      exact absurd (sound.apart w w₁ x y₁ i st st₁ worker old₁ holds holds₁) other₁
    · exact sound.apart w₁ w₂ y₁ y₂ i st₁ st₂ old₁ old₂ holds₁ holds₂

theorem Sound.frame (sound : s.Sound) (jobs : s'.jobs = s.jobs) (queue : s'.queue = s.queue)
    (workers : s'.workers = s.workers) : s'.Sound := by
  refine sound.idle ?_ (fun i => .inl ?_) queue workers
  · rw [jobs]
    exact sound.jobs
  · unfold stage
    rw [jobs]

theorem begin_at (i : Nat) (c : Job V E) :
    s.begin.jobs[i]? = some c ↔ s.jobs[i]? = some c ∨ (i = s.jobs.length ∧ c = {}) := by
  show (s.jobs ++ [({} : Job V E)])[i]? = some c ↔ _
  rw [getElem?_append]
  split
  · next inside => simp [Nat.ne_of_lt inside]
  · next outside =>
    have none : s.jobs[i]? = none := getElem?_eq_none (by omega)
    rw [none]
    constructor
    · intro at_
      obtain ⟨zero, same⟩ := List.getElem?_eq_some_iff.mp at_
      simp only [length_singleton] at zero
      refine .inr ⟨by omega, ?_⟩
      rw [← same]
      simp
    · rintro (never | ⟨rfl, rfl⟩)
      · cases never
      · simp

theorem Sound.begin (sound : s.Sound) : s.begin.Sound := by
  refine sound.idle ?_ ?_ rfl rfl
  · intro i c at_
    obtain old | ⟨_, rfl⟩ := (begin_at i c).mp at_
    · exact sound.jobs i c old
    · exact Job.sound_new
  · intro i
    cases here : s.jobs[i]? with
    | some c => exact .inl ((stage_at ((begin_at i c).mpr (.inl here))).trans (stage_at here).symm)
    | none =>
      have old : s.stage i = none := by
        unfold stage
        rw [here]
        rfl
      by_cases new : i = s.jobs.length
      · have fresh := stage_at ((begin_at i _).mpr (.inr ⟨new, rfl⟩))
        refine .inr ⟨by simp [Busy, old], ?_⟩
        rw [fresh]
        simp [Busy, Job.stage, stageOf]
      · refine .inl ?_
        have outside : s.begin.jobs[i]? = none := by
          cases there : s.begin.jobs[i]? with
          | none => rfl
          | some c =>
            obtain old | ⟨same, _⟩ := (begin_at i c).mp there
            · rw [here] at old
              cases old
            · exact absurd same new
        unfold stage
        rw [here, outside]

theorem Sound.accept (sound : s.Sound) (at_ : s.jobs[j]? = some b) (fresh : b.stage = .fresh)
    (uncancelled : b.cancelled = false) : (s.accept j b).Sound where
  jobs := put_sound sound at_ ((sound.jobs j b at_).accept fresh uncancelled)
  queue i := by
    show i ∈ s.queue ++ [j] ↔ (s.put j b.accept).stage i = some .queued
    rw [put_stage at_, mem_append, mem_singleton, sound.queue]
    split
    · next same => simp [same, Job.accept, Job.stage, stageOf]
    · next other => simp [other]
  once := by
    have unqueued : j ∉ s.queue := by
      rw [sound.queue, stage_at at_, fresh]
      simp
    show (s.queue ++ [j]).Nodup
    rw [nodup_append]
    refine ⟨sound.once, nodup_singleton j, ?_⟩
    intro a in_queue c same
    rw [mem_singleton.mp same]
    rintro rfl
    exact unqueued in_queue
  held w x i st worker holds := by
    show (s.put j b.accept).stage i = some st
    have held := sound.held w x i st worker holds
    rw [put_stage at_]
    split
    · next same =>
      subst same
      rw [stage_at at_, fresh] at held
      cases x <;> cases holds <;> cases held
    · exact held
  apart := sound.apart

theorem Sound.take {rest : List Nat} (sound : s.Sound)
    (queue : s.queue = j :: rest) (at_ : s.jobs[j]? = some b) :
    Sound { (s.put j b.take).setWorker w (.taking j) with queue := rest, taken := s.taken ++ [j] } := by
  have queued : s.stage j = some .queued := (sound.queue j).mp (by simp [queue])
  have here : b.stage = .queued := by
    rw [stage_at at_] at queued
    exact Option.some.inj queued
  have once := sound.once
  rw [queue, nodup_cons] at once
  have stage (i : Nat) : (s.put j b.take).stage i = if i = j then some .taken else s.stage i := by
    rw [put_stage at_]
    rfl
  have free {w' : Nat} {x : Worker} {st : Stage} (worker' : s.workers[w']? = some x) : x.holds ≠ some (j, st) := by
    intro holds
    have held := sound.held w' x j st worker' holds
    rw [queued] at held
    cases x <;> cases holds <;> cases held
  constructor
  · exact put_sound sound at_ ((sound.jobs j b at_).take here)
  · intro i
    show i ∈ rest ↔ (s.put j b.take).stage i = some .queued
    rw [stage]
    split
    · next same => simp [same, once.1]
    · next other =>
      rw [← sound.queue, queue]
      simp [other]
  · exact once.2
  · intro w' x i st worker' holds
    show (s.put j b.take).stage i = some st
    rw [stage]
    obtain ⟨_, rfl⟩ | ⟨_, worker'⟩ := setWorker_at worker'
    · cases holds
      rw [if_pos rfl]
    · split
      · next same =>
        subst same
        exact absurd holds (free worker')
      · exact sound.held w' x i st worker' holds
  · intro w₁ w₂ x₁ x₂ i st₁ st₂ worker₁ worker₂ holds₁ holds₂
    obtain ⟨same₁, rfl⟩ | ⟨_, old₁⟩ := setWorker_at worker₁ <;>
      obtain ⟨same₂, rfl⟩ | ⟨_, old₂⟩ := setWorker_at worker₂
    · rw [← same₁, ← same₂]
    · cases holds₁
      exact absurd holds₂ (free old₂)
    · cases holds₂
      exact absurd holds₁ (free old₁)
    · exact sound.apart w₁ w₂ x₁ x₂ i st₁ st₂ old₁ old₂ holds₁ holds₂

theorem Sound.exit (sound : s.Sound) : (s.setWorker w .exited).Sound where
  jobs := sound.jobs
  queue := sound.queue
  once := sound.once
  held w' x i st worker holds := by
    obtain ⟨_, rfl⟩ | ⟨_, worker⟩ := setWorker_at worker
    · cases holds
    · exact sound.held w' x i st worker holds
  apart w₁ w₂ x₁ x₂ i st₁ st₂ worker₁ worker₂ holds₁ holds₂ := by
    obtain ⟨_, rfl⟩ | ⟨_, worker₁⟩ := setWorker_at worker₁
    · cases holds₁
    · obtain ⟨_, rfl⟩ | ⟨_, worker₂⟩ := setWorker_at worker₂
      · cases holds₂
      · exact sound.apart w₁ w₂ x₁ x₂ i st₁ st₂ worker₁ worker₂ holds₁ holds₂

theorem notifyAll_at (calls : List Nat) (jobs : List (Job V E)) (i : Nat) :
    (notifyAll calls jobs)[i]? = jobs[i]?.map fun b => if i ∈ calls then b.notify else b :=
  getElem?_mapIdx

theorem callGuard_at {r : Ending V E} (at_ : s.jobs[j]? = some b) {i : Nat} {c : Job V E}
    (at_i : (s.callGuard j b r).jobs[i]? = some c) : (i = j ∧ c = b.leave r) ∨
      ∃ d, i ≠ j ∧ s.jobs[i]? = some d ∧ (i ∈ s.calls → c = d.notify) ∧ (i ∉ s.calls → c = d) := by
  have found := notifyAll_at (s.calls.filter (· ≠ j)) (s.put j (b.leave r)).jobs i
  rw [put_at at_] at found
  obtain ⟨d, at_d, rfl⟩ := Option.map_eq_some_iff.mp (found.symm.trans at_i)
  split at at_d
  · next same =>
    cases at_d
    exact .inl ⟨same, by simp [same]⟩
  · next other => exact .inr ⟨d, other, at_d, by simp_all, by simp_all⟩

theorem Sound.leave {r : Ending V E} (sound : s.Sound) (at_ : s.jobs[j]? = some b) (phase : b.phase = .leaving r) :
    (s.callGuard j b r).Sound := by
  refine sound.idle ?_ ?_ rfl rfl
  · intro i c at_i
    obtain ⟨_, rfl⟩ | ⟨d, _, at_d, inside, outside⟩ := callGuard_at at_ at_i
    · exact (sound.jobs j b at_).leave phase
    · by_cases mem : i ∈ s.calls
      · exact inside mem ▸ (sound.jobs i d at_d).notify
      · exact outside mem ▸ sound.jobs i d at_d
  · intro i
    refine .inl ?_
    have found := notifyAll_at (s.calls.filter (· ≠ j)) (s.put j (b.leave r)).jobs i
    have stage : (s.callGuard j b r).stage i = (s.put j (b.leave r)).stage i := by
      unfold Pool.stage
      rw [show (s.callGuard j b r).jobs[i]? = _ from found, Option.map_map]
      congr 1
      funext c
      show Job.stage (if _ then _ else _) = _
      split <;> rfl
    rw [stage, put_stage at_]
    split
    · next same => rw [same, stage_at at_]; rfl
    · rfl

theorem Sound.move (sound : s.Sound) (move : Move s s') : s'.Sound := by
  cases move with
  | begin turn => exact sound.begin
  | stop turn => exact sound.frame rfl rfl rfl
  | @drain j b phase turn at_ phases =>
    have here := sound.jobs j b at_
    have placed : (b.drain phase).Placed := by
      have placed := here.placed
      obtain ⟨old, rfl⟩ | ⟨old, rfl⟩ := phases <;>
        simpa [Job.Placed, Job.drain, Job.park, Job.stage, old] using placed
    exact sound.put at_ (here.drain placed) (.inl rfl)
  | @refuse j b turn at_ phase refused =>
    have here := sound.jobs j b at_
    have fresh : b.stage = .fresh := by simpa [Job.Placed, phase] using here.placed
    exact sound.put at_ (here.refuse fresh) (.inr ⟨by simp [Busy, fresh], by simp [Busy, Job.finish, Job.stage, stageOf]⟩)
  | @accept j b turn at_ phase open_ uncancelled credit =>
    have fresh : b.stage = .fresh := by simpa [Job.Placed, phase] using (sound.jobs j b at_).placed
    exact sound.accept at_ fresh uncancelled
  | @park j b phase turn at_ phases =>
    have here := sound.jobs j b at_
    have placed : (b.park phase).Placed := by
      have placed := here.placed
      obtain ⟨old, rfl, _⟩ | ⟨old, rfl, _⟩ := phases <;>
        simpa [Job.Placed, Job.drain, Job.park, Job.stage, old] using placed
    exact (sound.put at_ (here.park placed) (.inl rfl)).frame rfl rfl rfl
  | @finish j b turn at_ phase done =>
    have here := sound.jobs j b at_
    have stage : b.stage = .done := by
      have placed := here.placed
      simp only [Job.Placed, phase] at placed
      by_contra other
      exact here.story.told.unpublished other placed.2 (here.done.mp done)
    exact sound.put at_ (here.finish stage) (.inr ⟨by simp [Busy, stage], by simp [Busy, Job.finish, Job.stage, stageOf]⟩)
  | @leave j b r turn at_ phase => exact sound.leave at_ phase
  | stopped turn => exact sound.frame rfl rfl rfl
  | @stopNext j b rest closes turn at_ =>
    exact (sound.put at_ (sound.jobs j b at_).cancel (.inl rfl)).frame rfl rfl rfl
  | settled turn none => exact sound.frame rfl rfl rfl
  | parkClose turn => exact sound.frame rfl rfl rfl
  | joined turn exited => exact sound.frame rfl rfl rfl
  | @wake j b phase turn at_ phases =>
    have here := sound.jobs j b at_
    have placed : (b.park phase).Placed := by
      have placed := here.placed
      obtain ⟨old, rfl⟩ | ⟨old, rfl⟩ := phases <;>
        simpa [Job.Placed, Job.drain, Job.park, Job.stage, old] using placed
    exact (sound.put at_ (here.park placed) (.inl rfl)).frame rfl rfl rfl
  | wakeClose turn => exact sound.frame rfl rfl rfl
  | @cancel j b at_ here => exact sound.put at_ (sound.jobs j b at_).cancel (.inl rfl)
  | exit worker empty => exact sound.exit
  | take worker queue at_ => exact sound.take queue at_
  | @execute w j b worker at_ =>
    have taken := sound.held w _ j .taken worker rfl
    rw [stage_at at_] at taken
    have new := (sound.jobs j b at_).execute (Option.some.inj taken)
    refine (sound.carry worker rfl at_ new ?_ ?_).frame rfl rfl rfl
    · cases flag : b.cancelled <;> simp [Job.execute, Job.stage, stageOf, flag]
    · intro i st holds
      cases flag : b.cancelled <;> rw [flag] at holds <;> cases holds <;>
        simp [Job.execute, Job.stage, stageOf, flag]
  | @publish w j b worker at_ =>
    have finishing := sound.held w _ j .finishing worker rfl
    rw [stage_at at_] at finishing
    have new := (sound.jobs j b at_).publish (Option.some.inj finishing)
    refine sound.carry worker rfl at_ new (by simp [Job.publish, Job.stage, stageOf]) ?_
    intro i st holds
    cases holds
  | @invoke w j b o worker at_ =>
    have calling := sound.held w _ j .calling worker rfl
    rw [stage_at at_] at calling
    have new := (sound.jobs j b at_).invoke (Option.some.inj calling) o
    refine sound.carry worker rfl at_ new (by simp [Job.invoke, Job.stage, stageOf]) ?_
    intro i st holds
    cases holds
    exact ⟨rfl, rfl⟩

theorem sound_start (workers capacity : Nat) : (start workers capacity : Pool V E).Sound := by
  have none {w : Nat} {x : Worker} (at_ : (start workers capacity : Pool V E).workers[w]? = some x) :
      x.holds = none := by
    have idle := eq_of_mem_replicate (mem_of_getElem? at_)
    rw [idle]
    rfl
  constructor
  · intro j b at_
    cases at_
  · intro j
    constructor
    · intro never
      cases never
    · intro never
      cases never
  · exact nodup_nil
  · intro w x j st at_ holds
    rw [none at_] at holds
    cases holds
  · intro w w' x x' j st st' at_ _ holds _
    rw [none at_] at holds
    cases holds

/-- The credit of each call, who is still inside `run`, and who has to be woken for credit. -/
structure Owed (s : Pool V E) : Prop where
  calls : ∀ j, j ∈ s.calls ↔ ∃ b : Job V E, s.jobs[j]? = some b ∧ b.phase.isLeft = false
  counted : s.occupied = s.jobs.countP fun b => b.submitted && !b.phase.isLeft
  bounded : s.occupied ≤ s.capacity
  awake : ∀ (j : Nat) (b : Job V E), s.jobs[j]? = some b → b.phase = .asking → s.occupied < s.capacity →
    b.pending = true

theorem countP_put (p : Job V E → Bool) (at_ : s.jobs[j]? = some b) :
    (s.put j d).jobs.countP p + (if p b then 1 else 0) = s.jobs.countP p + (if p d then 1 else 0) := by
  obtain ⟨inside, here⟩ := List.getElem?_eq_some_iff.mp at_
  have mem : b ∈ s.jobs := mem_of_getElem? at_
  simp only [put, countP_set inside, here]
  cases old : p b with
  | false => simp
  | true =>
    have some_ : 0 < s.jobs.countP p := countP_pos_iff.mpr ⟨b, mem, old⟩
    simp only [if_true]
    omega

theorem Owed.frame (owed : s.Owed) (jobs : s'.jobs = s.jobs) (calls : s'.calls = s.calls)
    (occupied : s'.occupied = s.occupied) (capacity : s'.capacity = s.capacity) : s'.Owed where
  calls := by rw [calls, jobs]; exact owed.calls
  counted := by rw [occupied, jobs]; exact owed.counted
  bounded := by rw [occupied, capacity]; exact owed.bounded
  awake := by rw [occupied, capacity, jobs]; exact owed.awake

theorem Owed.put (owed : s.Owed) (at_ : s.jobs[j]? = some b) (submitted : d.submitted = b.submitted)
    (left : d.phase.isLeft = b.phase.isLeft)
    (awake : d.phase = .asking → s.occupied < s.capacity → d.pending = true) : (s.put j d).Owed where
  calls i := by
    show i ∈ s.calls ↔ _
    rw [owed.calls, put_at at_]
    split
    · next same => simp [same, at_, left]
    · rfl
  counted := by
    have count := countP_put (d := d) (fun b => b.submitted && !b.phase.isLeft) at_
    simp only [submitted, left] at count
    have counted := owed.counted
    show s.occupied = _
    omega
  bounded := owed.bounded
  awake i c at_i phase credit := by
    rw [put_at at_] at at_i
    split at at_i
    · cases at_i
      exact awake phase credit
    · exact owed.awake i c at_i phase credit

theorem Owed.begin (owed : s.Owed) : s.begin.Owed where
  calls i := by
    show i ∈ s.calls ++ [s.jobs.length] ↔ _
    simp only [begin_at, mem_append, mem_singleton, owed.calls]
    constructor
    · rintro (⟨b, at_, inside⟩ | rfl)
      · exact ⟨b, .inl at_, inside⟩
      · exact ⟨{}, .inr ⟨rfl, rfl⟩, rfl⟩
    · rintro ⟨b, at_ | ⟨same, _⟩, inside⟩
      · exact .inl ⟨b, at_, inside⟩
      · exact .inr same
  counted := by
    show s.occupied = (s.jobs ++ [({} : Job V E)]).countP _
    rw [countP_append, ← owed.counted]
    rfl
  bounded := owed.bounded
  awake i c at_i phase credit := by
    obtain old | ⟨_, rfl⟩ := (begin_at i c).mp at_i
    · exact owed.awake i c old phase credit
    · cases phase

theorem Owed.accept (owed : s.Owed) (at_ : s.jobs[j]? = some b) (unsubmitted : b.submitted = false)
    (inside : b.phase.isLeft = false) (credit : s.occupied < s.capacity) : (s.accept j b).Owed where
  calls i := by
    show i ∈ s.calls ↔ ∃ c, (s.put j b.accept).jobs[i]? = some c ∧ _
    rw [owed.calls, put_at at_]
    split
    · next same =>
      rw [same]
      constructor
      · intro _
        exact ⟨_, rfl, rfl⟩
      · intro _
        exact ⟨b, at_, inside⟩
    · rfl
  counted := by
    have count := countP_put (d := b.accept) (fun b => b.submitted && !b.phase.isLeft) at_
    simp only [unsubmitted, Bool.false_and, Bool.false_eq_true, if_false] at count
    have counted := owed.counted
    show s.occupied + 1 = (s.put j b.accept).jobs.countP _
    have new : (b.accept.submitted && !b.accept.phase.isLeft) = true := rfl
    rw [if_pos new] at count
    omega
  bounded := credit
  awake i c at_i phase more := by
    have at_i : (s.put j b.accept).jobs[i]? = some c := at_i
    rw [put_at at_] at at_i
    split at at_i
    · cases at_i
      cases phase
    · exact owed.awake i c at_i phase credit

theorem countP_notifyAll (calls : List Nat) (jobs : List (Job V E)) :
    ((notifyAll calls jobs).countP fun b => b.submitted && !b.phase.isLeft) =
      jobs.countP fun b => b.submitted && !b.phase.isLeft := by
  have same : (notifyAll calls jobs).map (fun b => b.submitted && !b.phase.isLeft) =
      jobs.map fun b => b.submitted && !b.phase.isLeft := by
    apply ext_getElem?
    intro i
    rw [getElem?_map, getElem?_map, notifyAll_at, Option.map_map]
    congr 1
    funext b
    show (Job.submitted (if _ then _ else _) && _) = _
    split <;> rfl
  have counts (l : List (Job V E)) : (l.countP fun b => b.submitted && !b.phase.isLeft) =
      (l.map fun b => b.submitted && !b.phase.isLeft).countP id := by
    rw [countP_map]
    rfl
  rw [counts, same, ← counts]

theorem Owed.leave {r : Ending V E} (owed : s.Owed) (at_ : s.jobs[j]? = some b) (phase : b.phase = .leaving r) :
    (s.callGuard j b r).Owed where
  calls i := by
    show i ∈ s.calls.filter (· ≠ j) ↔ _
    simp only [mem_filter, owed.calls, decide_eq_true_eq]
    constructor
    · rintro ⟨⟨d, at_d, inside⟩, other⟩
      have found := notifyAll_at (s.calls.filter (· ≠ j)) (s.put j (b.leave r)).jobs i
      rw [put_at at_, if_neg other, at_d] at found
      refine ⟨_, found, ?_⟩
      show Phase.isLeft (Job.phase (if _ then _ else _)) = false
      split <;> exact inside
    · rintro ⟨c, at_i, inside⟩
      obtain ⟨_, rfl⟩ | ⟨d, other, at_d, noted, same⟩ := callGuard_at at_ at_i
      · cases inside
      · refine ⟨⟨d, at_d, ?_⟩, other⟩
        by_cases mem : i ∈ s.calls
        · rw [noted mem] at inside
          exact inside
        · rw [same mem] at inside
          exact inside
  counted := by
    have count := countP_put (d := b.leave r) (fun b => b.submitted && !b.phase.isLeft) at_
    have counted := owed.counted
    have gone : ((b.leave r).submitted && !(b.leave r).phase.isLeft) = false := by
      simp [Job.leave, Phase.isLeft]
    have old : (b.submitted && !b.phase.isLeft) = b.submitted := by
      rw [phase]
      exact Bool.and_true _
    simp only [gone, old, Bool.false_eq_true, if_false] at count
    show (if b.submitted then s.occupied - 1 else s.occupied) = (notifyAll _ (s.put j (b.leave r)).jobs).countP _
    rw [countP_notifyAll]
    split
    · next submitted =>
      rw [if_pos submitted] at count
      omega
    · next unsubmitted =>
      rw [if_neg unsubmitted] at count
      omega
  bounded := by
    have bounded := owed.bounded
    show (if b.submitted then s.occupied - 1 else s.occupied) ≤ s.capacity
    split <;> omega
  awake i c at_i asking credit := by
    obtain ⟨_, rfl⟩ | ⟨d, other, at_d, noted, same⟩ := callGuard_at at_ at_i
    · cases asking
    · by_cases mem : i ∈ s.calls
      · rw [noted mem]
        rfl
      · rw [same mem] at asking
        exact absurd ((owed.calls i).mpr ⟨d, at_d, by rw [asking]; rfl⟩) mem

theorem Owed.move (owed : s.Owed) (sound : s.Sound) (move : Move s s') : s'.Owed := by
  cases move with
  | begin turn => exact owed.begin
  | stop turn => exact owed.frame rfl rfl rfl rfl
  | @drain j b phase turn at_ phases =>
    obtain ⟨old, rfl⟩ | ⟨old, rfl⟩ := phases
    · exact owed.put at_ rfl (by rw [old]; rfl) (fun asking => by cases asking)
    · exact owed.put at_ rfl (by rw [old]; rfl) (fun asking => by cases asking)
  | @refuse j b turn at_ phase refused =>
    exact owed.put at_ rfl (by rw [phase]; rfl) (fun asking => by cases asking)
  | @accept j b turn at_ phase open_ uncancelled credit =>
    have here := sound.jobs j b at_
    have fresh : b.stage = .fresh := by simpa [Job.Placed, phase] using here.placed
    have unsubmitted : b.submitted = false := by
      by_contra submitted
      have admitted := here.submitted.mp (by simpa using submitted)
      cases here.story.told.fresh fresh _ admitted
    exact owed.accept at_ unsubmitted (by rw [phase]; rfl) credit
  | @park j b phase turn at_ phases =>
    obtain ⟨old, rfl, full⟩ | ⟨old, rfl, _⟩ := phases
    · have put := owed.put (d := b.park .asking) at_ rfl (by rw [old]; rfl) (fun _ credit => absurd credit full)
      exact put.frame rfl rfl rfl rfl
    · have put := owed.put (d := b.park .awaiting) at_ rfl (by rw [old]; rfl) (fun asking => by cases asking)
      exact put.frame rfl rfl rfl rfl
  | @finish j b turn at_ phase done => exact owed.put at_ rfl (by rw [phase]; rfl) (fun asking => by cases asking)
  | @leave j b r turn at_ phase => exact owed.leave at_ phase
  | stopped turn => exact owed.frame rfl rfl rfl rfl
  | @stopNext j b rest closes turn at_ => exact (owed.put (d := b.cancel) at_ rfl rfl (fun _ _ => rfl)).frame rfl rfl rfl rfl
  | settled turn none => exact owed.frame rfl rfl rfl rfl
  | parkClose turn => exact owed.frame rfl rfl rfl rfl
  | joined turn exited => exact owed.frame rfl rfl rfl rfl
  | @wake j b phase turn at_ phases =>
    obtain ⟨old, rfl⟩ | ⟨old, rfl⟩ := phases
    · have put := owed.put (d := b.park .entering) at_ rfl (by rw [old]; rfl) (fun asking => by cases asking)
      exact put.frame rfl rfl rfl rfl
    · have put := owed.put (d := b.park .draining) at_ rfl (by rw [old]; rfl) (fun asking => by cases asking)
      exact put.frame rfl rfl rfl rfl
  | wakeClose turn => exact owed.frame rfl rfl rfl rfl
  | cancel at_ here => exact owed.put at_ rfl rfl (fun _ _ => rfl)
  | exit worker empty => exact owed.frame rfl rfl rfl rfl
  | @take w j b rest worker queue at_ =>
    exact (owed.put (d := b.take) at_ rfl rfl (owed.awake j b at_)).frame rfl rfl rfl rfl
  | @execute w j b worker at_ =>
    exact (owed.put (d := b.execute) at_ rfl rfl (owed.awake j b at_)).frame rfl rfl rfl rfl
  | @publish w j b worker at_ =>
    exact (owed.put (d := b.publish) at_ rfl rfl (fun _ _ => rfl)).frame rfl rfl rfl rfl
  | @invoke w j b o worker at_ =>
    exact (owed.put (d := b.invoke o) at_ rfl rfl (owed.awake j b at_)).frame rfl rfl rfl rfl

theorem owed_start (workers capacity : Nat) : (start workers capacity : Pool V E).Owed := by
  constructor <;> simp [start]

/-- The order in which calls leave the queue, and with one worker that in which they start. -/
structure InOrder (s : Pool V E) : Prop where
  fifo : s.admitted = s.taken ++ s.queue
  started : s.workers.length = 1 → s.started.Sublist s.taken
  taking : ∀ j, s.workers = [.taking j] → ∃ before, s.taken = before ++ [j] ∧ s.started.Sublist before

theorem InOrder.frame (order : s.InOrder) (admitted : s'.admitted = s.admitted) (taken : s'.taken = s.taken)
    (queue : s'.queue = s.queue) (started : s'.started = s.started) (workers : s'.workers = s.workers) :
    s'.InOrder := by
  obtain ⟨fifo, sublist, taking⟩ := order
  rw [← admitted, ← taken, ← queue] at fifo
  rw [← started, ← taken, ← workers] at sublist taking
  exact ⟨fifo, sublist, taking⟩

theorem InOrder.setWorker {x : Worker} (order : s.InOrder) (started : s'.started = s.started)
    (admitted : s'.admitted = s.admitted) (taken : s'.taken = s.taken) (queue : s'.queue = s.queue)
    (workers : s'.workers = s.workers.set w x) (not_taking : ∀ j, x ≠ .taking j)
    (here : ∃ y, s.workers[w]? = some y) : s'.InOrder where
  fifo := by rw [admitted, taken, queue]; exact order.fifo
  started one := by
    rw [workers, length_set] at one
    rw [started, taken]
    exact order.started one
  taking j only := by
    obtain ⟨y, at_⟩ := here
    obtain ⟨inside, _⟩ := List.getElem?_eq_some_iff.mp at_
    have mem : x ∈ s.workers.set w x := mem_set inside x
    rw [workers] at only
    rw [only, mem_singleton] at mem
    exact absurd mem (not_taking j)

theorem InOrder.move (order : s.InOrder) (move : Move s s') : s'.InOrder := by
  cases move with
  | @accept j b turn at_ phase open_ uncancelled credit =>
    constructor
    · show s.admitted ++ [j] = s.taken ++ (s.queue ++ [j])
      rw [order.fifo, append_assoc]
    · exact order.started
    · exact order.taking
  | @exit w worker empty =>
    exact order.setWorker (w := w) (x := .exited) rfl rfl rfl rfl rfl (fun j same => by cases same) ⟨_, worker⟩
  | @take w j b rest worker queue at_ =>
    constructor
    · show s.admitted = (s.taken ++ [j]) ++ rest
      rw [order.fifo, queue, append_assoc]
      rfl
    · intro one
      have one : (s.workers.set w (.taking j)).length = 1 := one
      rw [length_set] at one
      exact (order.started one).trans (sublist_append_left _ _)
    · intro i only
      have only : s.workers.set w (.taking j) = [.taking i] := only
      have one : s.workers.length = 1 := by
        rw [← length_set (i := w) (a := Worker.taking j), only]
        rfl
      obtain ⟨inside, _⟩ := List.getElem?_eq_some_iff.mp worker
      have mem : Worker.taking j ∈ s.workers.set w (.taking j) := mem_set inside _
      rw [only, mem_singleton] at mem
      cases mem
      exact ⟨s.taken, rfl, order.started one⟩
  | @execute w j b worker at_ =>
    obtain ⟨inside, here⟩ := List.getElem?_eq_some_iff.mp worker
    have alone (one : s.workers.length = 1) : s.workers = [.taking j] := by
      obtain ⟨x, only⟩ := length_eq_one_iff.mp one
      rw [only] at worker
      cases w with
      | zero => cases worker; exact only
      | succ w => cases worker
    constructor
    · exact order.fifo
    · intro one
      have one : (s.workers.set w (if b.cancelled then .finishing j else .calling j)).length = 1 := one
      rw [length_set] at one
      obtain ⟨before, taken, sublist⟩ := order.taking j (alone one)
      show (if b.cancelled then s.started else s.started ++ [j]).Sublist s.taken
      rw [taken]
      split
      · exact sublist.trans (sublist_append_left _ _)
      · exact sublist.append (List.Sublist.refl _)
    · intro i only
      have only : s.workers.set w (if b.cancelled then .finishing j else .calling j) = [.taking i] := only
      have mem := mem_set inside (if b.cancelled then Worker.finishing j else .calling j)
      rw [only, mem_singleton] at mem
      split at mem <;> cases mem
  | @publish w j b worker at_ =>
    exact order.setWorker (w := w) (x := .idle) rfl rfl rfl rfl rfl (fun j same => by cases same) ⟨_, worker⟩
  | @invoke w j b o worker at_ =>
    exact order.setWorker (w := w) (x := .finishing j) rfl rfl rfl rfl rfl (fun j same => by cases same) ⟨_, worker⟩
  | _ => exact order.frame rfl rfl rfl rfl rfl

/-- What a stop has yet to reach, and what is gone once a `close` has returned. -/
structure Closed (s : Pool V E) : Prop where
  stopping : ∀ rest closes, s.turn = .stopping rest closes → ∀ j ∈ rest, j ∈ s.calls
  joining : s.turn = .joining → s.calls = []
  closing : s.turn.closes = true ∨ 0 < s.closers → s.closing = true
  exited : s.returned ≠ [] → s.closing = true ∧ ∀ w ∈ s.workers, w = .exited
  gone : ∀ n ∈ s.returned, n ≤ s.jobs.length ∧ ∀ (j : Nat) (b : Job V E), s.jobs[j]? = some b →
    (j < n → b.phase.isLeft = true) ∧ (n ≤ j → b.submitted = false)

section
variable (closed : s.Closed)
include closed

theorem Closed.gone_put (at_ : s.jobs[j]? = some b) (here : b.phase.isLeft = false)
    (submitted : s.returned ≠ [] → d.submitted = b.submitted) :
    ∀ n ∈ s.returned, n ≤ (s.put j d).jobs.length ∧ ∀ (i : Nat) (c : Job V E), (s.put j d).jobs[i]? = some c →
      (i < n → c.phase.isLeft = true) ∧ (n ≤ i → c.submitted = false) := by
  intro n mem
  obtain ⟨old, gone⟩ := closed.gone n mem
  refine ⟨?_, ?_⟩
  · show n ≤ (s.jobs.set j d).length
    rw [length_set]
    exact old
  · intro i c at_i
    rw [put_at at_] at at_i
    split at at_i
    · next same =>
      subst same
      cases at_i
      have late : n ≤ i := by
        by_contra early
        have left := (gone i b at_).1 (by omega)
        rw [here] at left
        cases left
      rw [submitted (ne_nil_of_mem mem)]
      exact ⟨fun early => absurd early (by omega), fun _ => (gone i b at_).2 late⟩
    · exact gone i c at_i

theorem Closed.frame (turn : s'.turn = s.turn ∨ s'.turn.closes = false)
    (calls : s'.calls = s.calls) (closing : s'.closing = s.closing) (closers : s'.closers = s.closers)
    (returned : s'.returned = s.returned) (jobs : s'.jobs = s.jobs) (workers : s'.workers = s.workers) :
    s'.Closed where
  stopping rest closes stops := by
    obtain same | other := turn
    · rw [calls]
      exact closed.stopping rest closes (same ▸ stops)
    · rw [stops] at other
      cases other
  joining joins := by
    obtain same | other := turn
    · rw [calls]
      exact closed.joining (same ▸ joins)
    · rw [joins] at other
      cases other
  closing some_ := by
    rw [closing]
    rw [closers] at some_
    obtain same | other := turn
    · exact closed.closing (same ▸ some_)
    · exact closed.closing (.inr (some_.resolve_left (by simp [other])))
  exited := by rw [returned, closing, workers]; exact closed.exited
  gone := by rw [returned, jobs]; exact closed.gone

theorem Closed.put (at_ : s.jobs[j]? = some b) (here : b.phase.isLeft = false)
    (submitted : s.returned ≠ [] → d.submitted = b.submitted) : (s.put j d).Closed :=
  ⟨closed.stopping, closed.joining, closed.closing, closed.exited, closed.gone_put at_ here submitted⟩

theorem Closed.working {x : Worker} (worker : s.workers[w]? = some x) (busy : x ≠ .exited) : s.returned = [] := by
  by_contra some_
  exact busy ((closed.exited some_).2 x (mem_of_getElem? worker))

theorem Closed.work (none : s.returned = []) (turn : s'.turn = s.turn)
    (calls : s'.calls = s.calls) (closing : s'.closing = s.closing) (closers : s'.closers = s.closers)
    (returned : s'.returned = s.returned) : s'.Closed where
  stopping := by rw [turn, calls]; exact closed.stopping
  joining := by rw [turn, calls]; exact closed.joining
  closing := by rw [turn, closing, closers]; exact closed.closing
  exited some_ := absurd (returned.trans none) some_
  gone n mem := by
    rw [returned, none] at mem
    cases mem

theorem Closed.begin : s.begin.Closed where
  stopping rest closes stops := by cases stops
  joining joins := by cases joins
  closing some_ := closed.closing (.inr (some_.resolve_left (by simp [Pool.begin, Turn.closes])))
  exited := closed.exited
  gone n mem := by
    obtain ⟨old, gone⟩ := closed.gone n mem
    refine ⟨?_, ?_⟩
    · show n ≤ (s.jobs ++ [({} : Job V E)]).length
      rw [length_append]
      exact old.trans (Nat.le_add_right _ _)
    · intro i c at_i
      obtain before | ⟨rfl, rfl⟩ := (begin_at i c).mp at_i
      · exact gone i c before
      · exact ⟨fun early => absurd early (by omega), fun _ => rfl⟩

theorem Closed.leave {r : Ending V E} (at_ : s.jobs[j]? = some b)
    (phase : b.phase = .leaving r) : (s.callGuard j b r).Closed where
  stopping rest closes stops := by cases stops
  joining joins := by cases joins
  closing some_ := closed.closing (.inr (some_.resolve_left (by simp [callGuard, Turn.closes])))
  exited := closed.exited
  gone n mem := by
    obtain ⟨old, gone⟩ := closed.gone_put (d := b.leave r) at_ (by rw [phase]; rfl) (fun _ => rfl) n mem
    refine ⟨?_, ?_⟩
    · show n ≤ (List.mapIdx _ (s.jobs.set j (b.leave r))).length
      rw [length_mapIdx]
      exact old
    · intro i c at_i
      have found := notifyAll_at (s.calls.filter (· ≠ j)) (s.put j (b.leave r)).jobs i
      obtain ⟨d, at_d, rfl⟩ := Option.map_eq_some_iff.mp (found.symm.trans at_i)
      obtain ⟨left, late⟩ := gone i d at_d
      split
      · exact ⟨left, late⟩
      · exact ⟨left, late⟩

theorem Closed.joined (owed : s.Owed) (turn : s.turn = .joining)
    (exited : ∀ w ∈ s.workers, w = .exited) :
    Closed { s with returned := s.jobs.length :: s.returned, turn := .idle } where
  stopping rest closes stops := by cases stops
  joining joins := by cases joins
  closing some_ := closed.closing (.inr (some_.resolve_left (by simp [Turn.closes])))
  exited _ := ⟨closed.closing (.inl (by rw [turn]; rfl)), exited⟩
  gone n mem := by
    obtain rfl | old := mem_cons.mp mem
    · refine ⟨le_rfl, ?_⟩
      intro i c at_i
      obtain ⟨inside, _⟩ := List.getElem?_eq_some_iff.mp at_i
      refine ⟨fun _ => ?_, fun late => absurd inside (Nat.not_lt.mpr late)⟩
      by_contra here
      have mem := (owed.calls i).mpr ⟨c, at_i, by simpa using here⟩
      rw [closed.joining turn] at mem
      cases mem
    · exact closed.gone n old

theorem Closed.move (owed : s.Owed) (move : Move s s') : s'.Closed := by
  have inside {j : Nat} (mem : j ∈ s.calls) {b : Job V E} (at_ : s.jobs[j]? = some b) : b.phase.isLeft = false := by
    obtain ⟨c, at_c, here⟩ := (owed.calls j).mp mem
    rw [at_] at at_c
    cases at_c
    exact here
  cases move with
  | begin turn => exact closed.begin
  | @stop closes turn =>
    refine ⟨?_, ?_, fun _ => rfl, fun some_ => ⟨rfl, (closed.exited some_).2⟩, closed.gone⟩
    · intro rest closes' stops i mem
      cases stops
      exact mem
    · intro joins
      cases joins
  | @drain j b phase turn at_ phases =>
    refine closed.put at_ ?_ (fun _ => rfl)
    obtain ⟨old, _⟩ | ⟨old, _⟩ := phases <;> rw [old] <;> rfl
  | @refuse j b turn at_ phase refused => exact closed.put at_ (by rw [phase]; rfl) (fun _ => rfl)
  | @accept j b turn at_ phase open_ uncancelled credit =>
    have put := closed.put (d := b.accept) at_ (by rw [phase]; rfl) (fun some_ => by
      rw [(closed.exited some_).1] at open_
      cases open_)
    exact put.frame (.inl rfl) rfl rfl rfl rfl rfl rfl
  | @park j b phase turn at_ phases =>
    have put := closed.put (d := b.park phase) at_
      (by obtain ⟨old, _⟩ | ⟨old, _⟩ := phases <;> rw [old] <;> rfl) (fun _ => rfl)
    exact put.frame (.inr rfl) rfl rfl rfl rfl rfl rfl
  | @finish j b turn at_ phase done => exact closed.put at_ (by rw [phase]; rfl) (fun _ => rfl)
  | @leave j b r turn at_ phase => exact closed.leave at_ phase
  | @stopped closes turn =>
    have flag := closed.closing (.inl (by rw [turn]; rfl))
    refine ⟨?_, ?_, fun _ => flag, closed.exited, closed.gone⟩
    · intro rest closes' stops
      cases closes <;> cases stops
    · intro joins
      cases closes <;> cases joins
  | @stopNext j b rest closes turn at_ =>
    have reach := closed.stopping _ _ turn
    have put := closed.put (d := b.cancel) at_ (inside (reach j (by simp)) at_) (fun _ => rfl)
    refine ⟨?_, ?_, fun _ => closed.closing (.inl (by rw [turn]; rfl)), put.exited, put.gone⟩
    · intro rest' closes' stops i mem
      cases stops
      exact reach i (by simp [mem])
    · intro joins
      cases joins
  | settled turn none =>
    refine ⟨?_, fun _ => none, fun _ => closed.closing (.inl (by rw [turn]; rfl)), closed.exited, closed.gone⟩
    intro rest closes stops
    cases stops
  | parkClose turn =>
    refine ⟨?_, ?_, fun _ => closed.closing (.inl (by rw [turn]; rfl)), closed.exited, closed.gone⟩
    · intro rest closes stops
      cases stops
    · intro joins
      cases joins
  | joined turn exited => exact closed.joined owed turn exited
  | @wake j b phase turn at_ phases =>
    have put := closed.put (d := b.park phase) at_
      (by obtain ⟨old, _⟩ | ⟨old, _⟩ := phases <;> rw [old] <;> rfl) (fun _ => rfl)
    exact put.frame (.inr rfl) rfl rfl rfl rfl rfl rfl
  | wakeClose turn some_ =>
    refine ⟨?_, ?_, fun _ => closed.closing (.inr some_), closed.exited, closed.gone⟩
    · intro rest closes stops
      cases stops
    · intro joins
      cases joins
  | cancel at_ here => exact closed.put at_ here (fun _ => rfl)
  | exit worker empty => exact closed.work (closed.working worker (fun same => by cases same)) rfl rfl rfl rfl rfl
  | take worker queue at_ =>
    exact closed.work (closed.working worker (fun same => by cases same)) rfl rfl rfl rfl rfl
  | execute worker at_ => exact closed.work (closed.working worker (fun same => by cases same)) rfl rfl rfl rfl rfl
  | publish worker at_ => exact closed.work (closed.working worker (fun same => by cases same)) rfl rfl rfl rfl rfl
  | invoke worker at_ => exact closed.work (closed.working worker (fun same => by cases same)) rfl rfl rfl rfl rfl

end

end Pool
end Nxt.Runtime.Blocking

import Nxt.Lib.Exec
import Nxt.Wisp.Heap

/- The cache of control frames (eval.cpp). The latest calls are frames in an array, and what
   they have evaluated of their arguments is in slices of another; the calls before them are
   rows of the heap, from `way` on. The frames are kept here with the latest first. -/
namespace Nxt.Wisp
open Nxt.Lib List

structure CachedFrame where
  env : Word
  func : Word
  acc : Word
  arg : Word
  progressBegin : Nat := 0
  progressSize : Nat := 0
  deriving Inhabited

def maxFrames : Nat := 64
def maxProgress : Nat := 1024

structure Cache where
  heap : Heap
  env : Word
  way : Word
  progress : List Word
  frames : List CachedFrame := []
  progressUsed : Nat := 0

namespace Cache

abbrev Step := EStateM HostError Cache

def require (c : Prop) [Decidable c] : Step Unit := if c then pure () else throw .assertion

def allocate (make : Heap → Except HostError (Word × Heap)) : Step Word := do
  match make (← get).heap with
  | .ok (x, heap) => do
      modify fun s => { s with heap }
      pure x
  | .error e => throw e

/-- `std::copy` to the place `i` of an array. -/
def overwrite (array : List Word) (i : Nat) (xs : List Word) : List Word :=
  array.take i ++ xs ++ array.drop (i + xs.length)

def slice (s : Cache) (f : CachedFrame) : List Word :=
  (s.progress.drop f.progressBegin).take f.progressSize

def frame (s : Cache) : CachedFrame :=
  match s.frames with
  | f :: _ => f
  | [] => { env := s.heap.get .ktx .env s.way, func := s.heap.get .ktx .func s.way,
            acc := s.heap.get .ktx .acc s.way, arg := s.heap.get .ktx .arg s.way }

def inlineProgress (s : Cache) : Prop := s.frames ≠ [] ∧ s.frame.progressSize ≠ 0

instance (s : Cache) : Decidable s.inlineProgress := by unfold inlineProgress; infer_instance

/-- The loop of `spill`: the frames become rows, the oldest first. -/
def spillFrames : List CachedFrame → Step Unit
  | [] => pure ()
  | f :: rest => do
      let s ← get
      let acc ← if f.progressSize = 0 then pure f.acc else allocate fun h => h.newv32 (s.slice f)
      let way ← allocate fun h => h.make .ktx [s.way, f.env, f.func, acc, f.arg]
      modify fun s => { s with way }
      spillFrames rest

def spill (count : Nat) : Step Unit := do
  let s ← get
  require (count ≤ s.frames.length)
  if count = 0 then pure ()
  else
    let kept := s.frames.take (s.frames.length - count)
    let old := s.frames.drop (s.frames.length - count)
    spillFrames old.reverse
    let last := old.headD default
    let released := last.progressBegin + last.progressSize
    modify fun s => { s with
      progress := overwrite s.progress 0 ((s.progress.take s.progressUsed).drop released)
      progressUsed := s.progressUsed - released
      frames := kept.map fun f => { f with progressBegin := f.progressBegin - released } }

def push (func acc arg : Word) : Step Unit := do
  let s ← get
  if s.frames.length = maxFrames then spill (s.frames.length / 2)
  modify fun s => { s with frames := ⟨s.env, func, acc, arg, s.progressUsed, 0⟩ :: s.frames }

def pop : Step Unit := do
  let s ← get
  match s.frames with
  | f :: rest => set { s with progressUsed := f.progressBegin, frames := rest }
  | [] => set { s with way := s.heap.get .ktx .hop s.way }

def setFrame (field : Field) (value : Word) (cached : CachedFrame → CachedFrame) : Step Unit := do
  let s ← get
  if s.frames ≠ [] then set { s with frames := s.frames.modifyHead cached }
  else
    require (¬ s.heap.continuationFrozen s.way)
    set { s with heap := s.heap.set .ktx field s.way value }

def setAcc (acc : Word) : Step Unit := setFrame .acc acc fun f => { f with acc }

def setPosition (arg : Word) : Step Unit := setFrame .arg arg fun f => { f with arg }

/-- After a spill the source asserts that there is room; `makeProgress_room` shows it. -/
def makeProgress (size : Nat) : Step Unit := do
  let s ← get
  require (size ≠ 0 ∧ ¬ s.inlineProgress)
  if s.frames ≠ [] ∧ size ≤ maxProgress then
    if size > maxProgress - s.progressUsed then spill (s.frames.length - 1)
    modify fun s => { s with
      frames := s.frames.modifyHead fun f =>
        { f with progressBegin := s.progressUsed, progressSize := size }
      progress := overwrite s.progress s.progressUsed (replicate size nil)
      progressUsed := s.progressUsed + size }
  else
    let acc ← allocate fun h => h.filledv32 size nil
    setAcc acc

/-- The end of `writable_frame`. -/
def pull (f : CachedFrame) : Step Unit :=
  modify fun s => { s with way := s.heap.get .ktx .hop s.way, frames := f :: s.frames }

def writableFrame : Step Unit := do
  let s ← get
  if s.frames ≠ [] ∨ ¬ s.heap.continuationFrozen s.way then pure ()
  else
    let f := s.frame
    let kind := tagOf f.func
    if (kind = .func ∨ kind = .jet ∨ kind = .record) ∧ tagOf f.acc = .v32 then
      let xs := s.heap.v32slice f.acc
      if xs ≠ [] ∧ xs.length ≤ maxProgress then
        set { s with progress := overwrite s.progress 0 xs, progressUsed := xs.length }
        pull { f with progressSize := xs.length, acc := nil }
      else
        let acc ← allocate fun h => h.clonev32 f.acc
        pull { f with acc }
    else pull f

/-- The slices of the frames lie one after the other, from the beginning of the array to the used
    mark, and neither array is too short. -/
structure Layout (s : Cache) : Prop where
  contiguous : s.frames.IsChain fun later earlier =>
    later.progressBegin = earlier.progressBegin + earlier.progressSize
  disjoint : s.frames.Pairwise fun later earlier =>
    earlier.progressBegin + earlier.progressSize ≤ later.progressBegin
  last : ∀ f rest, s.frames = f :: rest → f.progressBegin + f.progressSize = s.progressUsed
  empty : s.frames = [] → s.progressUsed = 0
  depth : s.frames.length ≤ maxFrames
  used : s.progressUsed ≤ maxProgress

/-! ### Stacked slices -/

def Stacked : List CachedFrame → Nat → Prop
  | [], used => used = 0
  | f :: rest, used => f.progressBegin + f.progressSize = used ∧ Stacked rest f.progressBegin

section Stacked
variable {frames old : List CachedFrame} {used : Nat}

theorem stacked_le (stacked : Stacked frames used) : ∀ f ∈ frames, f.progressBegin + f.progressSize ≤ used := by
  induction frames generalizing used with
  | nil => nofun
  | cons g rest ih =>
    intro f held
    rcases mem_cons.mp held with rfl | earlier
    · exact stacked.1.le
    · have below := ih stacked.2 f earlier
      have top := stacked.1
      omega

theorem stacked_contiguous (stacked : Stacked frames used) : frames.IsChain fun later earlier =>
    later.progressBegin = earlier.progressBegin + earlier.progressSize := by
  induction frames generalizing used with
  | nil => exact .nil
  | cons f rest ih =>
    cases rest with
    | nil => exact .singleton f
    | cons g rest => exact .cons_cons stacked.2.1.symm (ih stacked.2)

theorem stacked_disjoint (stacked : Stacked frames used) : frames.Pairwise fun later earlier =>
    earlier.progressBegin + earlier.progressSize ≤ later.progressBegin := by
  induction frames generalizing used with
  | nil => exact .nil
  | cons f rest ih => exact .cons (stacked_le stacked.2) (ih stacked.2)

theorem stacked_released {last : CachedFrame} {kept : List CachedFrame}
    (stacked : Stacked (kept ++ last :: old) used) :
    Stacked (kept.map fun f => { f with
        progressBegin := f.progressBegin - (last.progressBegin + last.progressSize) })
      (used - (last.progressBegin + last.progressSize)) := by
  induction kept generalizing used with
  | nil => exact Nat.sub_eq_zero_of_le stacked.1.ge
  | cons f rest ih =>
    have below := stacked_le stacked.2 last (by simp)
    have top := stacked.1
    refine ⟨?_, ih stacked.2⟩
    change f.progressBegin - _ + f.progressSize = _
    omega

end Stacked

structure Sound (s : Cache) : Prop where
  stacked : Stacked s.frames s.progressUsed
  depth : s.frames.length ≤ maxFrames
  used : s.progressUsed ≤ maxProgress
  array : s.progress.length = maxProgress

theorem Sound.layout {s : Cache} (sound : Sound s) : Layout s where
  contiguous := stacked_contiguous sound.stacked
  disjoint := stacked_disjoint sound.stacked
  last f rest same := by
    have stacked := sound.stacked
    rw [same] at stacked
    exact stacked.1
  empty none := by
    have stacked := sound.stacked
    rwa [none] at stacked
  depth := sound.depth
  used := sound.used

/-! ### The operations -/

def Same (s s' : Cache) : Prop :=
  s'.frames = s.frames ∧ s'.progressUsed = s.progressUsed ∧ s'.progress = s.progress

section Operations
variable {s s' : Cache}

theorem Sound.same (sound : Sound s) (same : Same s s') : Sound s' := by
  obtain ⟨frames, used, progress⟩ := same
  exact ⟨by rw [frames, used]; exact sound.stacked, by rw [frames]; exact sound.depth,
    by rw [used]; exact sound.used, by rw [progress]; exact sound.array⟩

theorem allocate_same (make : Heap → Except HostError (Word × Heap)) (same : Same s s') :
    wp (allocate make) (fun _ => Same s) (fun _ => Same s) s' := by
  simp only [allocate, wp_bind, wp_get]
  cases make s'.heap with
  | error e => exact same
  | ok result => exact same

theorem spillFrames_same (frames : List CachedFrame) (same : Same s s') :
    wp (spillFrames frames) (fun _ => Same s) (fun _ => Same s) s' := by
  induction frames generalizing s' with
  | nil => exact same
  | cons f rest ih =>
    simp only [spillFrames, wp_bind, wp_get]
    have row (acc : Word) {t : Cache} (same : Same s t) :
        wp (do
          let way ← allocate fun h => h.make .ktx [s'.way, f.env, f.func, acc, f.arg]
          modify fun s => { s with way }
          spillFrames rest) (fun _ => Same s) (fun _ => Same s) t := by
      simp only [wp_bind, wp_modify]
      exact wp_mono (allocate_same _ same)
        (fun way t same => ih (show Same s { t with way } from same)) fun _ _ same => same
    split
    · rw [wp_bind, wp_pure]
      exact row f.acc same
    · rw [wp_bind]
      exact wp_mono (allocate_same _ same) (fun acc _ same => row acc same) fun _ _ same => same

theorem overwrite_length {array xs : List Word} {i : Nat} (inside : i + xs.length ≤ array.length) :
    (overwrite array i xs).length = array.length := by
  simp only [overwrite, length_append, length_take, length_drop]
  omega

section
variable (sound : Sound s)
include sound

theorem spill_sound (count : Nat) :
    wp (spill count) (fun _ s' => Sound s' ∧
      ∃ released, s'.frames = (s.frames.take (s.frames.length - count)).map fun f =>
        { f with progressBegin := f.progressBegin - released }) (fun _ => Sound) s := by
  simp only [spill, require, wp_bind, wp_get, wp_ite, wp_pure]
  refine ⟨fun enough => ⟨fun none => ⟨sound, 0, ?_⟩, fun some => ?_⟩, fun _ => sound⟩
  · simp [none]
  · refine wp_mono (spillFrames_same _ ⟨rfl, rfl, rfl⟩) (fun _ s' same => ?_)
      fun _ _ same => sound.same same
    obtain ⟨frames, used, progress⟩ := same
    have parted := take_append_drop (s.frames.length - count) s.frames
    have length := congrArg List.length parted
    simp only [length_append, length_take] at length
    cases dropped : s.frames.drop (s.frames.length - count) with
    | nil =>
      rw [dropped, length_nil] at length
      omega
    | cons last old =>
      have stacked := sound.stacked
      rw [← parted, dropped] at stacked
      have below := sound.used
      have depth := sound.depth
      have array := sound.array
      simp only [wp_modify, used, progress]
      refine ⟨⟨stacked_released stacked, ?_, (Nat.sub_le _ _).trans below, ?_⟩, _, rfl⟩
      · rw [length_map, length_take]
        omega
      · rw [overwrite_length, array]
        simp only [length_drop, length_take]
        omega

theorem push_sound (func acc arg : Word) : wp (push func acc arg) (fun _ => Sound) (fun _ => Sound) s := by
  have pushed {s' : Cache} (sound : Sound s') (room : s'.frames.length < maxFrames) (env : Word) :
      Sound { s' with frames := ⟨env, func, acc, arg, s'.progressUsed, 0⟩ :: s'.frames } :=
    ⟨⟨rfl, sound.stacked⟩, room, sound.used, sound.array⟩
  simp only [push, wp_bind, wp_get, wp_ite, wp_modify]
  constructor
  · intro full
    refine wp_mono (spill_sound sound _) (fun _ s' spilled => ?_) fun _ _ sound => sound
    obtain ⟨sound', released, frames⟩ := spilled
    apply pushed sound'
    have size : maxFrames = 64 := rfl
    rw [frames, length_map, length_take]
    omega
  · exact fun room => pushed sound (Nat.lt_of_le_of_ne sound.depth room) s.env

theorem pop_sound : wp pop (fun _ => Sound) (fun _ => Sound) s := by
  obtain ⟨stacked, depth, used, array⟩ := sound
  simp only [pop, wp_bind, wp_get]
  cases frames : s.frames with
  | nil =>
    rw [frames] at stacked depth
    exact ⟨stacked, depth, used, array⟩
  | cons f rest =>
    rw [frames] at stacked depth
    have top := stacked.1
    exact ⟨stacked.2, Nat.le_of_succ_le depth, by change f.progressBegin ≤ _; omega, array⟩

theorem setFrame_sound (field : Field) (value : Word) {cached : CachedFrame → CachedFrame}
    (kept : ∀ f, (cached f).progressBegin = f.progressBegin ∧ (cached f).progressSize = f.progressSize) : wp
    (setFrame field value cached) (fun _ => Sound) (fun _ => Sound) s := by
  obtain ⟨stacked, depth, used, array⟩ := sound
  simp only [setFrame, require, wp_bind, wp_get, wp_ite, wp_set, wp_pure, wp_throw]
  refine ⟨fun _ => ?_, fun _ => ⟨fun _ => ⟨stacked, depth, used, array⟩, fun _ => ⟨stacked, depth, used, array⟩⟩⟩
  refine ⟨?_, by rw [length_modifyHead]; exact depth, used, array⟩
  cases frames : s.frames with
  | nil =>
    rw [frames] at stacked
    exact stacked
  | cons f rest =>
    rw [frames] at stacked
    obtain ⟨begins, size⟩ := kept f
    rw [modifyHead_cons, Stacked, begins, size]
    exact stacked

theorem given_sound {f : CachedFrame} {rest : List CachedFrame}
    (frames : s.frames = f :: rest) (none : f.progressSize = 0) {size : Nat}
    (room : size ≤ maxProgress - s.progressUsed) :
    Sound { s with
      frames := s.frames.modifyHead fun f =>
        { f with progressBegin := s.progressUsed, progressSize := size }
      progress := overwrite s.progress s.progressUsed (replicate size nil)
      progressUsed := s.progressUsed + size } := by
  obtain ⟨stacked, depth, used, array⟩ := sound
  rw [frames] at stacked depth
  have top := stacked.1
  have inside : s.progressUsed + (replicate size nil).length ≤ s.progress.length := by
    rw [length_replicate]
    omega
  refine ⟨?_, ?_, by change s.progressUsed + size ≤ _; omega, (overwrite_length inside).trans array⟩
  · rw [frames, modifyHead_cons]
    refine ⟨rfl, ?_⟩
    rw [show s.progressUsed = f.progressBegin by omega]
    exact stacked.2
  · rw [length_modifyHead, frames]
    exact depth

/-- When all frames but the latest are spilled, and it has no slice, the array is free. -/
theorem makeProgress_room {f : CachedFrame} (alone : s.frames = [f])
    (none : f.progressSize = 0) : s.progressUsed = 0 := by
  have stacked := sound.stacked
  rw [alone] at stacked
  have below : f.progressBegin = 0 := stacked.2
  have top := stacked.1
  omega

theorem makeProgress_sound (size : Nat) : wp (makeProgress size) (fun _ => Sound) (fun _ => Sound) s := by
  simp only [makeProgress, require, wp_bind, wp_get, wp_ite, wp_pure, wp_throw, wp_modify]
  refine ⟨fun asked => ⟨fun small => ?_, fun _ => ?_⟩, fun _ => sound⟩
  · obtain ⟨f, rest, frames⟩ := exists_cons_of_ne_nil small.1
    have none : f.progressSize = 0 := by
      by_contra some
      exact asked.2 ⟨small.1, by rwa [frame, frames]⟩
    refine ⟨fun full => ?_, fun room => given_sound sound frames none (by omega)⟩
    refine wp_mono (spill_sound sound _) (fun _ s' spilled => ?_) fun _ _ sound => sound
    obtain ⟨sound', released, left⟩ := spilled
    rw [frames, show (f :: rest).length - ((f :: rest).length - 1) = 1 by simp] at left
    have free := makeProgress_room sound' left none
    exact given_sound sound' left none (by have fits := small.2; omega)
  · refine wp_mono (allocate_same _ ⟨rfl, rfl, rfl⟩) (fun acc s' same => ?_)
      fun _ _ same => sound.same same
    exact setFrame_sound (sound.same same) .acc acc fun f => ⟨rfl, rfl⟩

end

theorem pull_sound (empty : s.frames = []) (below : s.progressUsed ≤ maxProgress)
    (array : s.progress.length = maxProgress) {f : CachedFrame} (first : f.progressBegin = 0)
    (used : f.progressSize = s.progressUsed) : wp (pull f) (fun _ => Sound) (fun _ => Sound) s := by
  have fresh : Stacked (f :: s.frames) s.progressUsed := by
    rw [empty]
    exact ⟨by omega, first⟩
  have depth : (f :: s.frames).length ≤ maxFrames := by
    rw [empty]
    exact Nat.succ_le_of_lt (by decide)
  exact ⟨fresh, depth, below, array⟩

theorem writableFrame_sound (sound : Sound s) : wp writableFrame (fun _ => Sound) (fun _ => Sound) s := by
  simp only [writableFrame, wp_bind, wp_get, wp_ite, wp_pure, wp_set]
  refine ⟨fun _ => sound, fun frozen => ?_⟩
  have empty : s.frames = [] := by
    by_contra some
    exact frozen (Or.inl some)
  have none : s.progressUsed = 0 := sound.layout.empty empty
  have below := sound.used
  have array := sound.array
  have row : s.frame.progressBegin = 0 ∧ s.frame.progressSize = 0 := by
    rw [frame, empty]
    exact ⟨rfl, rfl⟩
  refine ⟨fun _ => ⟨fun short => ?_, fun _ => ?_⟩, fun _ => ?_⟩
  · have array : (overwrite s.progress 0 (s.heap.v32slice s.frame.acc)).length = maxProgress := by
      rw [overwrite_length, array]
      rw [Nat.zero_add, array]
      exact short.2
    apply pull_sound
    · exact empty
    · exact short.2
    · exact array
    · exact row.1
    · rfl
  · refine wp_mono (allocate_same _ ⟨rfl, rfl, rfl⟩) (fun acc s' same => ?_)
      fun _ _ same => sound.same same
    obtain ⟨frames, used, progress⟩ := same
    exact pull_sound (frames.trans empty) (used ▸ below) (progress ▸ array) row.1
      (row.2.trans (used.trans none).symm)
  · exact pull_sound empty below array row.1 (row.2.trans none.symm)

end Operations

/-! ### Runs -/

inductive Op where
  | push (func acc arg : Word)
  | makeProgress (size : Nat)
  | pop
  | spill (count : Nat)
  | writableFrame
  | setAcc (acc : Word)
  | setPosition (arg : Word)
  /-- What the evaluator does besides: it also fills the slices. -/
  | other (heap : Heap) (env way : Word) (progress : Fin maxProgress → Word)

def Op.step : Op → Step Unit
  | .push func acc arg => Cache.push func acc arg
  | .makeProgress size => Cache.makeProgress size
  | .pop => Cache.pop
  | .spill count => Cache.spill count
  | .writableFrame => Cache.writableFrame
  | .setAcc acc => Cache.setAcc acc
  | .setPosition arg => Cache.setPosition arg
  | .other heap env way progress => modify fun s =>
      { s with heap, env, way, progress := List.ofFn progress }

def after (s : Cache) (op : Op) : Cache :=
  match op.step s with
  | .ok _ s' => s'
  | .error _ s' => s'

/-- A segment starts with an empty cache, whatever the last one left in the array. -/
def start (heap : Heap) (env way : Word) (progress : Fin maxProgress → Word) : Cache where
  heap := heap
  env := env
  way := way
  progress := List.ofFn progress

theorem step_sound {s : Cache} (sound : Sound s) (op : Op) : wp op.step (fun _ => Sound) (fun _ => Sound) s := by
  cases op with
  | push func acc arg => exact push_sound sound func acc arg
  | makeProgress size => exact makeProgress_sound sound size
  | pop => exact pop_sound sound
  | spill count => exact wp_mono (spill_sound sound count) (fun _ _ spilled => spilled.1) fun _ _ kept => kept
  | writableFrame => exact writableFrame_sound sound
  | setAcc acc => exact setFrame_sound sound .acc acc fun _ => ⟨rfl, rfl⟩
  | setPosition arg => exact setFrame_sound sound .arg arg fun _ => ⟨rfl, rfl⟩
  | other heap env way progress => exact ⟨sound.stacked, sound.depth, sound.used, by simp⟩

theorem after_sound {s : Cache} (sound : Sound s) (op : Op) : Sound (after s op) := by
  have stepped := step_sound sound op
  unfold wp at stepped
  unfold after
  split
  · rename_i run
    rwa [run] at stepped
  · rename_i run
    rwa [run] at stepped

theorem run_sound {s : Cache} (sound : Sound s) (ops : List Op) : Sound (ops.foldl after s) := by
  induction ops generalizing s with
  | nil => exact sound
  | cons op rest ih => exact ih (after_sound sound op)

/-- After any operations the slices of the cached frames are contiguous and disjoint, the last
    one ends at the used mark, and neither array overflows. -/
theorem cache_layout (heap : Heap) (env way : Word) (progress : Fin maxProgress → Word)
    (ops : List Op) : Layout (ops.foldl after (start heap env way progress)) := by
  have sound : Sound (start heap env way progress) :=
    ⟨rfl, Nat.zero_le _, Nat.zero_le _, by simp [start]⟩
  exact (run_sound sound ops).layout

end Cache
end Nxt.Wisp

import Mathlib

/- Two ends of a stream. A speaker says items one after another, each in the form its state gives
   it; the listener has heard a first part of them and keeps the state the speaker had then. -/
namespace Nxt.Lib
open List

structure Speaker (σ ι α : Type) where
  after : σ → ι → σ
  emit : σ → ι → List α

namespace Speaker
variable {σ ι α : Type} (s : Speaker σ ι α)

def run (start : σ) (items : List ι) : σ := items.foldl s.after start

def wire : σ → List ι → List α
  | _, [] => []
  | state, item :: rest => s.emit state item ++ wire (s.after state item) rest

theorem run_append (start : σ) (items more : List ι) : s.run start (items ++ more) = s.run (s.run start items) more :=
  foldl_append

@[simp] theorem run_nil (start : σ) : s.run start [] = start := rfl

@[simp] theorem run_cons (start : σ) (item : ι) (items : List ι) :
    s.run start (item :: items) = s.run (s.after start item) items := rfl

theorem wire_append (state : σ) (items more : List ι) :
    s.wire state (items ++ more) = s.wire state items ++ s.wire (s.run state items) more := by
  induction items generalizing state with
  | nil => rfl
  | cons item items ih => rw [cons_append, wire, wire, ih, append_assoc, run_cons]

/-- The listener has heard `heard` of what was said, and the rest is under way. -/
structure Follows (start : σ) (said : List ι) (underway : List α) (state : σ) (heard unheard : List ι) : Prop where
  split : said = heard ++ unheard
  followed : state = s.run start heard
  carried : underway = s.wire state unheard

variable {s} {start state : σ} {said heard unheard : List ι} {underway : List α}

theorem follows_start (start : σ) : s.Follows start [] [] start [] [] := ⟨rfl, rfl, rfl⟩

theorem Follows.speak (follows : s.Follows start said underway state heard unheard) (items : List ι) :
    s.Follows start (said ++ items) (underway ++ s.wire (s.run start said) items) state heard (unheard ++ items) := by
  refine ⟨by rw [follows.split, append_assoc], follows.followed, ?_⟩
  rw [follows.split, run_append, ← follows.followed, follows.carried, wire_append]

theorem Follows.say (follows : s.Follows start said underway state heard unheard) (item : ι) :
    s.Follows start (said ++ [item]) (underway ++ s.emit (s.run start said) item) state heard (unheard ++ [item]) := by
  have spoken := follows.speak [item]
  rwa [wire, wire, append_nil] at spoken

theorem Follows.hear {item : ι} (follows : s.Follows start said underway state heard (item :: unheard)) :
    underway = s.emit state item ++ s.wire (s.after state item) unheard ∧
      s.Follows start said (s.wire (s.after state item) unheard) (s.after state item) (heard ++ [item]) unheard := by
  refine ⟨follows.carried, ?_, ?_, rfl⟩
  · rw [follows.split, append_assoc]
    rfl
  · rw [run_append, ← follows.followed]
    rfl

theorem Follows.caught_up (follows : s.Follows start said underway state heard []) :
    underway = [] ∧ state = s.run start said := by
  refine ⟨follows.carried, ?_⟩
  rw [follows.split, append_nil]
  exact follows.followed

end Speaker

end Nxt.Lib

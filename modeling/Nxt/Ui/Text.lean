import Nxt.Lib.Exec
import Nxt.Ui.Raster

/- Text measured in cells (utf8.hpp): clusters of characters and how wide they are. The functions of
   utf8proc are given. -/
namespace Nxt.Ui
open Nxt.Lib

structure Utf8proc where
  /-- How many bytes the code point at the front has, and the code point; nothing for an error. -/
  iterate : Bytes → Option (Nat × Nat)
  /-- Whether a cluster ends between two code points, with a state that goes on. -/
  graphemeBreak : Nat → Nat → Int → Bool × Int
  charwidth : Nat → Int
  iterate_length : ∀ {text : Bytes} {len cp : Nat}, text ≠ [] → iterate text = some (len, cp) →
    0 < len ∧ len ≤ text.length
  iterate_space : iterate [0x20] = some (1, 0x20)
  charwidth_space : charwidth 0x20 = 1

structure Decoded where
  length : Nat := 1
  codepoint : Nat := 0xfffd
  valid : Bool := false
  deriving DecidableEq

section Measures
variable (u : Utf8proc)

def decode (text : Bytes) (byte : Nat) : Decoded :=
  if text.length ≤ byte then { length := 0, codepoint := 0 }
  else match u.iterate (text.drop byte) with
    | none => {}
    | some (length, codepoint) => { length, codepoint, valid := true }

def regionalIndicator (cp : Nat) : Bool := 0x1f1e6 ≤ cp && cp ≤ 0x1f1ff

theorem decode_length {text : Bytes} {byte : Nat} (inside : byte < text.length) :
    0 < (decode u text byte).length ∧ byte + (decode u text byte).length ≤ text.length := by
  unfold decode
  rw [if_neg (by omega)]
  split
  · exact ⟨by decide, inside⟩
  · rename_i length codepoint found
    have some_ : text.drop byte ≠ [] := by
      rw [ne_eq, List.drop_eq_nil_iff]
      omega
    have bounds := u.iterate_length some_ found
    rw [List.length_drop] at bounds
    exact ⟨bounds.1, by dsimp only; omega⟩

/-- The loop of `next`: the cluster goes on up to a break or a byte that is no character. -/
def nextFrom (text : Bytes) (current end_ : Nat) (state : Int) : Nat :=
  if _more : end_ < text.length then
    let following := decode u text end_
    if following.valid = false then end_
    else
      let broken := u.graphemeBreak current following.codepoint state
      if broken.1 then end_
      else nextFrom text following.codepoint (end_ + following.length) broken.2
  else end_
  termination_by text.length - end_
  decreasing_by
    have bounds := decode_length u _more
    omega

/-- Where the cluster after a byte ends. -/
def next (text : Bytes) (byte : Nat) : Nat :=
  if text.length ≤ byte then text.length
  else
    let current := decode u text byte
    if current.valid = false then byte + current.length
    else nextFrom u text current.codepoint (byte + current.length) 0

/-- What `cluster_width` has counted. -/
structure Widths where
  sum : Nat := 0
  maxWidth : Nat := 0
  regionalIndicators : Nat := 0
  onlyRegionalIndicators : Bool
  hasZwj : Bool := false
  deriving DecidableEq

def Widths.add (s : Widths) (cp : Nat) : Widths :=
  let s := if cp = 0x200d then { s with hasZwj := true } else s
  let s := if regionalIndicator cp then { s with regionalIndicators := s.regionalIndicators + 1 }
    else { s with onlyRegionalIndicators := false }
  let width := u.charwidth cp
  if 0 < width then
    { s with sum := s.sum + width.toNat, maxWidth := if s.maxWidth < width.toNat then width.toNat else s.maxWidth }
  else s

def Widths.width (s : Widths) : Nat :=
  if s.hasZwj then if s.maxWidth = 0 then 1 else s.maxWidth
  else if s.onlyRegionalIndicators && 2 ≤ s.regionalIndicators then 2
  else if s.sum = 0 then 1 else s.sum

/-- The loop of `cluster_width`. -/
def widthFrom (cluster : Bytes) (byte : Nat) (s : Widths) : Nat :=
  if _more : byte < cluster.length then
    let d := decode u cluster byte
    if d.valid = false then 1
    else widthFrom cluster (byte + d.length) (s.add u d.codepoint)
  else s.width
  termination_by cluster.length - byte
  decreasing_by
    have bounds := decode_length u _more
    omega

def clusterWidth (cluster : Bytes) : Nat :=
  widthFrom u cluster 0 { onlyRegionalIndicators := !cluster.isEmpty }

theorem nextFrom_bounds {text : Bytes} (current : Nat) {end_ : Nat} (state : Int) (inside : end_ ≤ text.length) :
    end_ ≤ nextFrom u text current end_ state ∧ nextFrom u text current end_ state ≤ text.length := by
  induction current, end_, state using nextFrom.induct u text with
  | case1 current end_ state more following invalid =>
    rw [nextFrom, dif_pos more, if_pos invalid]
    exact ⟨le_rfl, inside⟩
  | case2 current end_ state more following valid broken stop =>
    rw [nextFrom, dif_pos more, if_neg valid, if_pos stop]
    exact ⟨le_rfl, inside⟩
  | case3 current end_ state more following valid broken on ih =>
    rw [nextFrom, dif_pos more, if_neg valid, if_neg on]
    have bounds := decode_length u more
    have rest := ih bounds.2
    exact ⟨(Nat.le_add_right ..).trans rest.1, rest.2⟩
  | case4 current end_ state done =>
    rw [nextFrom, dif_neg done]
    exact ⟨le_rfl, inside⟩

theorem next_bounds {text : Bytes} {byte : Nat} (inside : byte < text.length) :
    byte < next u text byte ∧ next u text byte ≤ text.length := by
  have bounds := decode_length u inside
  unfold next
  rw [if_neg (by omega)]
  dsimp only
  split
  · omega
  · have rest := nextFrom_bounds u (decode u text byte).codepoint 0 bounds.2
    omega

theorem Widths.width_pos (s : Widths) : 0 < s.width := by
  unfold Widths.width
  split
  · split <;> omega
  · split
    · omega
    · split <;> omega

theorem widthFrom_pos (cluster : Bytes) (byte : Nat) (s : Widths) : 0 < widthFrom u cluster byte s := by
  induction byte, s using widthFrom.induct u cluster with
  | case1 byte s more d invalid =>
    rw [widthFrom, dif_pos more, if_pos invalid]
    exact Nat.one_pos
  | case2 byte s more d valid ih =>
    rw [widthFrom, dif_pos more, if_neg valid]
    exact ih
  | case3 byte s done =>
    rw [widthFrom, dif_neg done]
    exact s.width_pos

theorem clusterWidth_pos (cluster : Bytes) : 0 < clusterWidth u cluster := widthFrom_pos u cluster 0 _

theorem clusterWidth_space : clusterWidth u [0x20] = 1 := by
  have first : decode u [0x20] 0 = { length := 1, codepoint := 0x20, valid := true } := by
    unfold decode
    rw [if_neg (by decide), List.drop_zero, u.iterate_space]
  unfold clusterWidth
  rw [widthFrom, dif_pos (by decide)]
  simp only [first]
  rw [if_neg (by decide), widthFrom, dif_neg (by decide)]
  unfold Widths.add
  simp [u.charwidth_space, Widths.width, regionalIndicator]

end Measures

end Nxt.Ui

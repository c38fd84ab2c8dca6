import Nxt.Ui.Compositor
import Nxt.Ui.Terminal

/- What the terminal makes of the escape writer's bytes: every escape is read back as what it was
   written for, and drawn glyphs are read back one by one. -/
namespace Nxt.Ui
open Nxt.Lib List
variable {cs : Charset} {rows cols : Nat}
variable {obey : Bytes → Terminal cs rows cols → Terminal cs rows cols}

theorem Terminal.write_drawn {texts : List Bytes} (drawn : ∀ text ∈ texts, (cs.width text).isSome)
    (t : Terminal cs rows cols) : t.write obey texts.flatten = texts.foldl (Terminal.print obey) t := by
  unfold Terminal.write
  rw [cs.segment_flatten texts drawn]

theorem accept_text {bytes : Bytes} (plain : ∀ b ∈ bytes, b ≠ 0x1b) (pending : Bytes)
    (t : Terminal cs rows cols) :
    bytes.foldl (Receiver.accept obey) { mode := .text pending, terminal := t } =
      { mode := .text (pending ++ bytes), terminal := t } := by
  induction bytes generalizing pending with
  | nil => rw [append_nil]; rfl
  | cons b rest ih =>
    have step : Receiver.accept obey { mode := .text pending, terminal := t } b =
        { mode := .text (pending ++ [b]), terminal := t } := if_neg (plain b mem_cons_self)
    rw [foldl_cons, step, ih (fun c inside => plain c (mem_cons_of_mem _ inside)), append_assoc]
    rfl

theorem accept_params {bytes : Bytes} (params : ∀ b ∈ bytes, b < 0x40) (before : Bytes)
    (t : Terminal cs rows cols) :
    bytes.foldl (Receiver.accept obey) { mode := .control before, terminal := t } =
      { mode := .control (before ++ bytes), terminal := t } := by
  induction bytes generalizing before with
  | nil => rw [append_nil]; rfl
  | cons b rest ih =>
    have low := params b mem_cons_self
    have step : Receiver.accept obey { mode := .control before, terminal := t } b =
        { mode := .control (before ++ [b]), terminal := t } :=
      if_neg fun final => absurd low (UInt8.not_lt.mpr final.1)
    rw [foldl_cons, step, ih (fun c inside => params c (mem_cons_of_mem _ inside)), append_assoc]
    rfl

theorem decimal_parameter {n : Nat} {b : UInt8} (inside : b ∈ decimal n) : b < 0x40 ∧ b ≠ 0x3b := by
  obtain ⟨low, high⟩ := decimal_digit inside
  rw [UInt8.le_iff_toNat_le] at high
  refine ⟨UInt8.lt_iff_toNat_lt.mpr ?_, ?_⟩
  · exact Nat.lt_of_le_of_lt high (by decide)
  · rintro rfl
    exact absurd high (by decide)

theorem parameters_low {params : List Nat} {b : UInt8}
    (inside : b ∈ [(0x3b : UInt8)].intercalate (params.map decimal)) : b < 0x40 := by
  induction params with
  | nil => cases inside
  | cons n rest ih =>
    cases rest with
    | nil =>
      rw [map_cons, map_nil, intercalate_singleton] at inside
      exact (decimal_parameter inside).1
    | cons m more =>
      rw [map_cons, map_cons, intercalate_cons_cons, mem_append,
        mem_append] at inside
      rcases inside with (digit | semicolon) | later
      · exact (decimal_parameter digit).1
      · rw [mem_singleton.mp semicolon]
        decide
      · exact ih later

theorem parameters_read {params : List Nat} (some : params ≠ []) :
    (([(0x3b : UInt8)].intercalate (params.map decimal)).splitOn 0x3b).map readDecimal = params := by
  rw [splitOn_intercalate]
  · rw [map_map]
    exact (map_congr_left fun n _ => readDecimal_decimal n).trans (map_id params)
  · intro text inside semicolon
    obtain ⟨n, _, rfl⟩ := mem_map.mp inside
    exact (decimal_parameter semicolon).2 rfl
  · simpa using some

/-- `w` takes the terminal to `t` once the text at its end is written, whatever is in it. -/
def Reads (obey : Bytes → Terminal cs rows cols → Terminal cs rows cols) (start : Terminal cs rows cols) (w : Bytes)
    (t : Terminal cs rows cols) : Prop :=
  ∃ (pending : Bytes) (before : Terminal cs rows cols),
    w.foldl (Receiver.accept obey) { mode := .text [], terminal := start } =
      { mode := .text pending, terminal := before } ∧ before.write obey pending = t

namespace Reads
variable {start t : Terminal cs rows cols} {w : Bytes}

theorem received (reads : Reads obey start w t) : start.receive obey w = t := by
  obtain ⟨pending, before, read, rfl⟩ := reads
  unfold Terminal.receive
  simp only [read]

theorem escape (reads : Reads obey start w t) :
    (w ++ [0x1b]).foldl (Receiver.accept obey) { mode := .text [], terminal := start } =
      { mode := .escape, terminal := t } := by
  obtain ⟨pending, before, read, rfl⟩ := reads
  rw [foldl_append, read]
  rfl

theorem csi (reads : Reads obey start w t) {params : List Nat} (some : params ≠ []) {finalByte : UInt8}
    (final : 0x40 ≤ finalByte ∧ finalByte ≤ 0x7e) :
    (Writer.csi w params finalByte).foldl (Receiver.accept obey) { mode := .text [], terminal := start } =
      { mode := .text [], terminal := t.control params finalByte } := by
  have opened : (w ++ [0x1b, 0x5b]).foldl (Receiver.accept obey)
      { mode := .text [], terminal := start } = { mode := .control [], terminal := t } := by
    rw [show w ++ [0x1b, 0x5b] = (w ++ [0x1b]) ++ [0x5b] by simp, foldl_append, reads.escape]
    rfl
  unfold Writer.csi
  rw [foldl_append, foldl_append, opened, accept_params (fun b inside => parameters_low inside), nil_append]
  have step : Receiver.accept obey
      { mode := .control ([(0x3b : UInt8)].intercalate (params.map decimal)), terminal := t } finalByte =
        { mode := .text [], terminal := t.control
            ((([(0x3b : UInt8)].intercalate (params.map decimal)).splitOn 0x3b).map readDecimal)
            finalByte } := if_pos final
  rw [foldl_cons, step, parameters_read some]
  rfl

end Reads

/-- `w` took the terminal to `t`, up to drawn glyphs that are still to be read. -/
def Written (obey : Bytes → Terminal cs rows cols → Terminal cs rows cols)
    (start : Terminal cs rows cols) (w : Bytes) (t : Terminal cs rows cols) : Prop :=
  ∃ (texts : List Bytes) (before : Terminal cs rows cols),
    (∀ text ∈ texts, (cs.width text).isSome) ∧
    w.foldl (Receiver.accept obey) { mode := .text [], terminal := start } =
      { mode := .text texts.flatten, terminal := before } ∧
    texts.foldl (Terminal.print obey) before = t

namespace Written
variable {start t : Terminal cs rows cols} {w : Bytes}

theorem nil : Written obey start [] start :=
  ⟨[], start, (fun _ none => absurd none not_mem_nil), rfl, rfl⟩

section
variable (written : Written obey start w t)
include written

theorem reads : Reads obey start w t := by
  obtain ⟨texts, before, drawn, read, rfl⟩ := written
  exact ⟨texts.flatten, before, read, Terminal.write_drawn drawn before⟩

theorem received : start.receive obey w = t := written.reads.received

theorem escape :
    (w ++ [0x1b]).foldl (Receiver.accept obey) { mode := .text [], terminal := start } =
      { mode := .escape, terminal := t } := written.reads.escape

theorem csi {params : List Nat} (some : params ≠ []) {finalByte : UInt8} (final : 0x40 ≤ finalByte ∧ finalByte ≤ 0x7e) :
    Written obey start (Writer.csi w params finalByte) (t.control params finalByte) :=
  ⟨[], t.control params finalByte, (fun _ none => absurd none not_mem_nil), written.reads.csi some final, rfl⟩

theorem saveCursor : Written obey start (Writer.saveCursor w) t.save := by
  refine ⟨[], t.save, (fun _ none => absurd none not_mem_nil), ?_, rfl⟩
  rw [Writer.saveCursor, show w ++ [0x1b, 0x37] = (w ++ [0x1b]) ++ [0x37] by simp, foldl_append, written.escape]
  rfl

theorem restoreCursor : Written obey start (Writer.restoreCursor w) t.restore := by
  refine ⟨[], t.restore, (fun _ none => absurd none not_mem_nil), ?_, rfl⟩
  rw [Writer.restoreCursor, show w ++ [0x1b, 0x38] = (w ++ [0x1b]) ++ [0x38] by simp,
    foldl_append, written.escape]
  rfl

theorem text {text : Bytes} {width : Nat}
    (drawn : cs.width text = some width) : Written obey start (w ++ text) (t.print obey text) := by
  obtain ⟨texts, before, all, read, rfl⟩ := written
  refine ⟨texts ++ [text], before, ?_, ?_, ?_⟩
  · intro other inside
    rcases mem_append.mp inside with earlier | last
    · exact all other earlier
    · rw [mem_singleton.mp last, drawn]
      rfl
  · have plain : ∀ b ∈ text, b ≠ 0x1b := by
      rintro b inside rfl
      exact absurd (cs.printable drawn _ inside).1 (by decide)
    rw [foldl_append, read, accept_text plain, flatten_append, flatten_singleton]
  · rw [foldl_append]
    rfl

end

end Written
end Nxt.Ui

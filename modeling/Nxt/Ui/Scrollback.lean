import Nxt.Ui.Regional

/- Lines written in the scrolling rows are kept. The first `n` rows of the screen hold what was
   written last, blank below the cursor, and the history holds what was written before; every
   program keeps this for the rows that scroll after it. -/
namespace Nxt.Ui.Regional
open List

/-- The first `n` rows scroll, and what they and the history show is what was written. A fresh
    cursor stands at the start of a blank row. -/
structure Held (height n : Nat) (fresh : Bool) (written : List Text) (t : Tty) : Prop where
  tall : t.screen.length = height
  fits : n ≤ height
  inside : t.row < n
  below : ∀ y, t.row < y → y < n → t.screen[y]? = some []
  fresh : fresh = true → t.screen[t.row]? = some [] ∧ t.col = 0
  kept : (t.history ++ t.screen.take n).filter shown = written.filter shown

def Margins (n : Nat) (t : Tty) : Prop := t.top = 0 ∧ t.bottom + 1 = n

theorem filter_blank {lines : List Text} (blank : ∀ (y : Nat) (line : Text), lines[y]? = some line → line = []) :
    lines.filter shown = [] := by
  refine filter_eq_nil_iff.mpr ?_
  intro line inside
  obtain ⟨y, at_⟩ := getElem?_of_mem inside
  rw [blank y line at_]
  decide

section Rows
variable {height n : Nat} {fresh : Bool} {written : List Text} {t : Tty}

theorem Held.stale (held : Held height n fresh written t) : Held height n false written t :=
  { held with fresh := fun never => by cases never }

theorem take_blank {screen : List Text} {m n : Nat} (order : m ≤ n)
    (blank : ∀ y, m ≤ y → y < n → y < screen.length → screen[y]? = some []) :
    (screen.take n).filter shown = (screen.take m).filter shown := by
  have split : screen.take n = screen.take m ++ (screen.drop m).take (n - m) := by
    rw [← take_add, Nat.add_sub_cancel' order]
  rw [split, filter_append]
  have none : ((screen.drop m).take (n - m)).filter shown = [] := by
    refine filter_blank ?_
    intro y line at_
    obtain ⟨low, _⟩ := List.getElem?_eq_some_iff.mp at_
    rw [length_take, length_drop] at low
    rw [getElem?_take, if_pos (by omega), getElem?_drop, blank _ (by omega) (by omega) (by omega)]
      at at_
    exact (Option.some.inj at_).symm
  rw [none, append_nil]

theorem Held.narrow (held : Held height n fresh written t) {m : Nat} (order : m ≤ n) (row : t.row < m) :
    Held height m fresh written t where
  tall := held.tall
  fits := order.trans held.fits
  inside := row
  below y low high := held.below y low (high.trans_le order)
  fresh := held.fresh
  kept := by
    rw [← held.kept, filter_append, filter_append, take_blank order]
    intro y low high _
    exact held.below y (by omega) high

theorem Held.widen (held : Held height n fresh written t) {m : Nat} (order : n ≤ m) (fits : m ≤ height)
    (blank : ∀ y, n ≤ y → y < m → t.screen[y]? = some []) : Held height m fresh written t where
  tall := held.tall
  fits := fits
  inside := held.inside.trans_le order
  below y low high := by
    by_cases old : y < n
    · exact held.below y low old
    · exact blank y (by omega) high
  fresh := held.fresh
  kept := by
    rw [← held.kept, filter_append, filter_append, take_blank order]
    intro y low high _
    exact blank y low high

theorem Margins.region (margins : Margins n t) : t.region = t.screen.take n := by
  unfold Tty.region
  rw [margins.1, margins.2, drop_zero]

theorem scrollUp_screen (margins : Margins n t) (height : n ≤ t.screen.length) {r : Nat} (small : r ≤ n) :
    (t.scrollUp r).screen = (t.screen.take n).drop r ++ replicate r [] ++ t.screen.drop n ∧
      (t.scrollUp r).history = t.history ++ (t.screen.take n).take r := by
  have length : min r (t.screen.take n).length = r := by
    rw [length_take]
    omega
  unfold Tty.scrollUp
  simp only [margins.region, margins.1, margins.2, length, take_zero, nil_append, if_true, and_self]

theorem scrolled_row {screen : List Text} (height : n ≤ screen.length) {r : Nat} (small : r ≤ n) (y : Nat) :
    ((screen.take n).drop r ++ replicate r [] ++ screen.drop n)[y]? =
      if y < n - r then screen[y + r]? else if y < n then some [] else screen[y]? := by
  have first : ((screen.take n).drop r).length = n - r := by
    rw [length_drop, length_take]
    omega
  by_cases low : y < n - r
  · rw [if_pos low, append_assoc, getElem?_append_left (by omega), getElem?_drop,
      getElem?_take, if_pos (by omega), Nat.add_comm]
  · rw [if_neg low, append_assoc, getElem?_append_right (by omega), first]
    by_cases mid : y < n
    · rw [if_pos mid, getElem?_append_left (by rw [length_replicate]; omega),
        getElem?_replicate, if_pos (by omega)]
    · rw [if_neg mid, getElem?_append_right (by rw [length_replicate]; omega), length_replicate, getElem?_drop]
      congr 1
      omega

theorem Held.reserve (held : Held height n fresh written t) (margins : Margins n t) {r : Nat} (small : r < n) :
    Held height (n - r) fresh written ((t.scrollUp r).withRow (t.row - r)) ∧
      ∀ y, n - r ≤ y → y < n → (t.scrollUp r).screen[y]? = some [] := by
  have room : n ≤ t.screen.length := held.tall ▸ held.fits
  obtain ⟨screen, history⟩ := scrollUp_screen margins room small.le
  have row_at := fun y => scrolled_row room small.le y
  have inside := held.inside
  have fits := held.fits
  have height_eq := held.tall
  constructor
  · constructor
    · show (t.scrollUp r).screen.length = height
      rw [screen]
      simp only [length_append, length_drop, length_take, length_replicate]
      omega
    · omega
    · show t.row - r < n - r
      omega
    · intro y low high
      have past : t.row - r < y := low
      show (t.scrollUp r).screen[y]? = some []
      rw [screen, row_at, if_pos high]
      exact held.below (y + r) (by omega) (by omega)
    · intro is_fresh
      obtain ⟨blank, col⟩ := held.fresh is_fresh
      refine ⟨?_, col⟩
      show (t.scrollUp r).screen[t.row - r]? = some []
      rw [screen, row_at, if_pos (by omega)]
      by_cases kept : r ≤ t.row
      · rw [Nat.sub_add_cancel kept]
        exact blank
      · exact held.below _ (by omega) (by omega)
    · show ((t.scrollUp r).history ++ (t.scrollUp r).screen.take (n - r)).filter shown = _
      have rest : (t.scrollUp r).screen.take (n - r) = (t.screen.take n).drop r := by
        have length : ((t.screen.take n).drop r).length = n - r := by
          rw [length_drop, length_take]
          omega
        rw [screen, append_assoc, ← length, take_left]
      rw [rest, history, append_assoc, take_append_drop]
      exact held.kept
  · intro y low high
    rw [screen, row_at, if_neg (by omega), if_pos high]

theorem Held.lineFeed (held : Held height n fresh written t) (margins : Margins n t) :
    Held height n true written t.lineFeed ∧ Margins n t.lineFeed := by
  have room : n ≤ t.screen.length := held.tall ▸ held.fits
  have inside := held.inside
  have bottom := margins.2
  have height_eq := held.tall
  unfold Tty.lineFeed
  by_cases last : t.row = t.bottom
  · rw [if_pos last]
    refine ⟨?_, margins⟩
    obtain ⟨screen, history⟩ := scrollUp_screen margins room (r := 1) (by omega)
    have row_at := fun y => scrolled_row room (r := 1) (by omega) y
    constructor
    · show (t.scrollUp 1).screen.length = height
      rw [screen]
      simp only [length_append, length_drop, length_take, length_replicate]
      omega
    · exact held.fits
    · exact inside
    · intro y low high
      have past : t.row < y := low
      omega
    · intro _
      refine ⟨?_, rfl⟩
      show (t.scrollUp 1).screen[t.row]? = some []
      rw [screen, row_at, if_neg (by omega), if_pos inside]
    · show ((t.scrollUp 1).history ++ (t.scrollUp 1).screen.take n).filter shown = _
      have rest : (t.scrollUp 1).screen.take n = (t.screen.take n).drop 1 ++ [[]] := by
        have length : ((t.screen.take n).drop 1 ++ replicate 1 ([] : Text)).length = n := by
          rw [length_append, length_drop, length_take, length_replicate]
          omega
        rw [screen]
        exact take_left' length
      rw [rest, history, append_assoc, ← append_assoc ((t.screen.take n).take 1),
        take_append_drop, ← append_assoc, filter_append, held.kept]
      exact append_nil _
  · rw [if_neg last, if_pos (by omega)]
    refine ⟨?_, margins⟩
    have next := held.below (t.row + 1) (by omega) (by omega)
    constructor
    · exact held.tall
    · exact held.fits
    · show t.row + 1 < n
      omega
    · intro y low high
      have past : t.row + 1 < y := low
      exact held.below y (by omega) high
    · exact fun _ => ⟨next, rfl⟩
    · exact held.kept

end Rows

section Text
variable {height n cols : Nat} {fresh : Bool} {written : List Text} {t : Tty}

theorem overlay_end (line : Text) (c : Char) : Tty.overlay line line.length c = line ++ [c] := by
  unfold Tty.overlay
  rw [take_length, Nat.sub_self, drop_eq_nil_of_le (Nat.le_succ _)]
  simp

theorem put_text {line before : Text} (fits : before.length + line.length ≤ cols)
    (at_ : t.screen[t.row]? = some before) (col : t.col = before.length) :
    line.foldl (Tty.put cols) t =
      { t with screen := t.screen.set t.row (before ++ line), col := before.length + line.length } := by
  obtain ⟨inside, here⟩ := List.getElem?_eq_some_iff.mp at_
  induction line generalizing t before with
  | nil =>
    have same : t.screen.set t.row (before ++ []) = t.screen := by
      rw [append_nil, ← here, set_getElem_self]
    rw [same, length_nil, Nat.add_zero, ← col]
    rfl
  | cons c rest ih =>
    rw [length_cons] at fits
    have step : Tty.put cols t c =
        { t with screen := t.screen.set t.row (before ++ [c]), col := t.col + 1 } := by
      unfold Tty.put
      simp only [if_pos (show t.col < cols by omega)]
      rw [modify_eq_set, at_, Option.getD_some, col, overlay_end]
    rw [foldl_cons, step, @ih _ (before ++ [c])]
    · simp only [set_set, append_assoc, singleton_append, length_append, length_cons, length_nil]
      congr 1
      omega
    · rw [length_append, length_singleton]
      omega
    · exact getElem?_set_self inside
    · show t.col + 1 = _
      rw [length_append, length_singleton, col]
    · show t.row < (t.screen.set t.row (before ++ [c])).length
      rw [length_set]
      exact inside
    · exact getElem_set_self _

theorem Held.text (held : Held height n true written t) {line : Text} (fits : line.length ≤ cols) :
    Held height n false (written ++ [line]) (line.foldl (Tty.put cols) t) := by
  obtain ⟨blank, col⟩ := held.fresh rfl
  have inside := held.inside
  have room : n ≤ t.screen.length := held.tall ▸ held.fits
  rw [put_text (by rw [length_nil]; omega) blank col]
  constructor
  · show (t.screen.set t.row ([] ++ line)).length = height
    rw [length_set]
    exact held.tall
  · exact held.fits
  · exact inside
  · intro y low high
    have past : t.row < y := low
    show (t.screen.set t.row ([] ++ line))[y]? = some []
    rw [getElem?_set_ne (by omega)]
    exact held.below y past high
  · exact fun never => by cases never
  · show (t.history ++ (t.screen.set t.row ([] ++ line)).take n).filter shown = _
    have upto : ((t.screen.set t.row ([] ++ line)).take n).filter shown =
        (t.screen.take t.row).filter shown ++ [line].filter shown := by
      rw [take_blank (Nat.succ_le_of_lt inside), nil_append, take_add_one,
        getElem?_set_self (by omega), take_set, set_eq_of_length_le (by simp)]
      · rw [filter_append]
        rfl
      · intro y low high _
        rw [getElem?_set_ne (by omega)]
        exact held.below y (by omega) high
    have before : (t.screen.take n).filter shown = (t.screen.take t.row).filter shown := by
      refine take_blank inside.le ?_
      intro y low high _
      rcases Nat.eq_or_lt_of_le low with rfl | past
      · exact blank
      · exact held.below y past high
    rw [filter_append, upto, ← append_assoc, ← before, ← filter_append, held.kept, ← filter_append]

theorem held_blank (held : Held height n fresh written t) : Held height n fresh (written ++ [[]]) t :=
  { held with kept := by rw [held.kept, filter_append]; exact (append_nil _).symm }

theorem run_append (least : Nat) (t : Tty) (a b : List Command) :
    t.run least cols (a ++ b) = (t.run least cols a).run least cols b := foldl_append

theorem Held.line (held : Held height n true written t) (margins : Margins n t) (least : Nat) {line : Text}
    (fits : line.length ≤ cols) :
    Held height n false (written ++ [line]) (t.run least cols (if line.isEmpty then [] else [.text line])) ∧
      Margins n (t.run least cols (if line.isEmpty then [] else [.text line])) := by
  by_cases empty : line.isEmpty = true
  · rw [if_pos empty, List.isEmpty_iff.mp empty]
    exact ⟨(held_blank held).stale, margins⟩
  · rw [if_neg empty]
    refine ⟨held.text fits, ?_⟩
    obtain ⟨blank, col⟩ := held.fresh rfl
    show Margins n (line.foldl (Tty.put cols) t)
    rw [put_text (by rw [length_nil]; omega) blank col]
    exact margins

theorem Held.lines (held : Held height n true written t) (margins : Margins n t) (least : Nat) {lines : List Text}
    (some_ : lines ≠ []) (fits : ∀ line ∈ lines, line.length ≤ cols) : Held height n false (written ++ lines)
    (t.run least cols (emitLines lines)) ∧ Margins n (t.run least cols (emitLines lines)) := by
  induction lines generalizing t written with
  | nil => exact absurd rfl some_
  | cons line rest ih =>
    have first := held.line margins least (fits line mem_cons_self)
    cases rest with
    | nil => exact first
    | cons next more =>
      obtain ⟨one, around⟩ := first
      obtain ⟨two, around'⟩ := one.lineFeed around
      have all := ih two around' (cons_ne_nil _ _)
        fun other inside => fits other (mem_cons_of_mem _ inside)
      have program : emitLines (line :: next :: more) =
        (if line.isEmpty then [] else [.text line]) ++ [.lineFeed] ++ emitLines (next :: more) := rfl
      rw [program, run_append, run_append]
      rw [append_assoc] at all
      exact all

theorem Held.block {append : ScrollbackAppendState} (held : Held height n (!append.afterBlock) written t)
    (margins : Margins n t) (least : Nat) {block : Text} (fits : ∀ line ∈ block.splitOn '\n', line.length ≤ cols) :
    Held height n (!(append.appendBlock block).2.afterBlock)
        (written ++ if block.isEmpty then [] else block.splitOn '\n') (t.run least cols (append.appendBlock block).1) ∧
      Margins n (t.run least cols (append.appendBlock block).1) := by
  unfold ScrollbackAppendState.appendBlock
  by_cases empty : block.isEmpty = true
  · rw [if_pos empty, if_pos empty, append_nil]
    exact ⟨held, margins⟩
  · rw [if_neg empty, if_neg empty]
    have opened : Held height n true written (t.run least cols
          ([.resetGraphics] ++ if append.afterBlock then [.lineFeed] else [])) ∧
        Margins n (t.run least cols ([.resetGraphics] ++ if append.afterBlock then [.lineFeed] else [])) := by
      cases after : append.afterBlock with
      | false =>
        rw [after] at held
        exact ⟨held, margins⟩
      | true => exact held.lineFeed margins
    rw [run_append]
    exact opened.1.lines opened.2 least (splitOn_ne_nil _ _) fits

end Text
end Nxt.Ui.Regional

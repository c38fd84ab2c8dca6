import Nxt.Ui.Repartition

/- Where output goes on after a change from one windowed partition to another: on the row after the last line, as long
   as the fixed region does not grow by more than the rows above that line. -/
namespace Nxt.Ui.Regional
open List
variable {height n m least cols : Nat} {t : Tty}

def blockStart : List Command := [.resetGraphics, .lineFeed]

/-- The cursor of `after` is on the line on which that of `before` was, and the next block starts on a blank row with
    nothing but the lines up to that one above it. -/
def Follows (least cols : Nat) (before after : Tty) : Prop :=
  let block := after.run least cols blockStart
  after.screen[after.row]? = before.screen[before.row]? ∧
  block.screen[block.row]? = some [] ∧
  block.history ++ block.screen.take block.row = before.history ++ before.screen.take (before.row + 1)

section
variable (margins : Margins n t) (room : n ≤ t.screen.length)
include margins room

theorem scrollUp_rows {r : Nat} (small : r ≤ n) (y : Nat) :
    (t.scrollUp r).screen[y]? = if y < n - r then t.screen[y + r]? else if y < n then some [] else t.screen[y]? := by
  rw [(scrollUp_screen margins room small).1, scrolled_row room small]

theorem scrollUp_above {r y : Nat} (small : r ≤ n)
    (kept : y + r ≤ n) :
    (t.scrollUp r).history ++ (t.scrollUp r).screen.take y = t.history ++ t.screen.take (y + r) := by
  have length : ((t.screen.take n).drop r).length = n - r := by
    rw [length_drop, length_take]
    omega
  obtain ⟨screen, history⟩ := scrollUp_screen margins room small
  have above : (t.scrollUp r).screen.take y = (t.screen.drop r).take y := by
    rw [screen, append_assoc, take_append_of_le_length (by omega), drop_take, take_take,
      Nat.min_eq_left (by omega)]
  rw [above, history, append_assoc, take_take, Nat.min_eq_left small, Nat.add_comm y, take_add]

theorem lineFeed_below (inside : t.row < n)
    (blank : t.row + 1 < n → t.screen[t.row + 1]? = some []) : t.lineFeed.screen[t.lineFeed.row]? = some [] ∧
      t.lineFeed.history ++ t.lineFeed.screen.take t.lineFeed.row = t.history ++ t.screen.take (t.row + 1) := by
  have bottom := margins.2
  unfold Tty.lineFeed
  by_cases last : t.row = t.bottom
  · rw [if_pos last]
    refine ⟨?_, @scrollUp_above _ _ margins room 1 t.row (by omega) (by omega)⟩
    show (t.scrollUp 1).screen[t.row]? = some []
    rw [scrollUp_rows margins room (by omega), if_neg (by omega), if_pos inside]
  · rw [if_neg last, if_pos (by omega)]
    exact ⟨blank (by omega), rfl⟩

end

section
variable (tall : t.screen.length = height) (margins : Margins n t)
include tall margins

theorem windowedMargins_run (some_ : 0 < m)
    (less : m < height) :
    t.run least cols (marginProgram (scrolling height m)) =
      { t with top := 0, bottom := if least ≤ m then m - 1 else t.bottom, saved := (t.row, t.col) } := by
  by_cases taken : least ≤ m
  · rw [margins_run tall some_ less.le (.inr taken), if_pos taken]
  · rw [if_neg taken, scrolling_windowed less]
    have refuses : ¬(0 + least ≤ m - 1 + 1 ∧ m - 1 < t.screen.length) := by omega
    show (Tty.exec least cols { t with saved := (t.row, t.col) } (.setScrollRegion ⟨⟨0, m⟩⟩)).exec least cols
      .restoreCursor = _
    have step : Tty.exec least cols { t with saved := (t.row, t.col) } (.setScrollRegion ⟨⟨0, m⟩⟩) =
        { t with saved := (t.row, t.col) } := if_neg refuses
    rw [step, ← margins.1]
    rfl

/-- A change between windowed partitions scrolls by the growth of the fixed region, moves the cursor as far up as it
    goes, and blanks both fixed regions. -/
theorem windowedChange_run (old : n < height) (some_ : 0 < m)
    (next : m < height) :
    ∃ screen saved bottom,
      t.run least cols (emitRepartition (.from_ (scrolling height n) (scrolling height m))) =
        { t.scrollUp (n - m) with screen, saved, row := t.row - (n - m), top := 0, bottom } ∧
      (bottom + 1 = m ∨ bottom + 1 = n) ∧ screen.length = height ∧
      ∀ y, screen[y]? = if min m n ≤ y ∧ y < height then some [] else (t.scrollUp (n - m)).screen[y]? := by
  have room : n ≤ t.screen.length := by omega
  have hides : (Repartition.from_ (scrolling height n) (scrolling height m)).next.hidden = decide (m = height) :=
    scrolling_hidden_iff next.le
  have program : marginProgram (Repartition.from_ (scrolling height n) (scrolling height m)).next =
    marginProgram (scrolling height m) := rfl
  rw [emitRepartition_run margins room, from_reservation some_ old.le next.le, from_clear old.le next.le, hides,
    decide_eq_false next.ne, Bool.and_false, run_append, program]
  have tall' : ((t.scrollUp (n - m)).withRow (t.row - (n - m))).screen.length = height := by
    show (t.scrollUp (n - m)).screen.length = height
    rw [(scrollUp_screen margins room (Nat.sub_le n m)).1]
    simp only [length_append, length_drop, length_take, length_replicate]
    omega
  rw [windowedMargins_run tall' margins some_ next]
  obtain ⟨screen, saved, ran, length, rows⟩ := @clearing_run cols least
    { (t.scrollUp (n - m)).withRow (t.row - (n - m)) with
        top := 0, bottom := if least ≤ m then m - 1 else t.bottom, saved := (t.row - (n - m), t.col) }
    (min m n) (by show min m n ≤ ((t.scrollUp (n - m)).withRow (t.row - (n - m))).screen.length; omega)
  have long : (Tty.screen { (t.scrollUp (n - m)).withRow (t.row - (n - m)) with
      top := 0, bottom := if least ≤ m then m - 1 else t.bottom, saved := (t.row - (n - m), t.col) }).length = height :=
    tall'
  rw [long] at ran rows length
  refine ⟨screen, saved, if least ≤ m then m - 1 else t.bottom, ran, ?_, length, rows⟩
  have bottom := margins.2
  split <;> omega

/-- The cursor stays with its line exactly if the fixed region grows by no more rows than there are above the line. -/
theorem windowedChange_follows (old : n < height) (some_ : 0 < m) (next : m < height) (inside : t.row < n)
    (blank : ∀ y, t.row < y → y < n → t.screen[y]? = some []) : Follows least cols t
    (t.run least cols (emitRepartition (.from_ (scrolling height n) (scrolling height m)))) ↔ n - m ≤ t.row := by
  have room : n ≤ t.screen.length := by omega
  have small : n - m ≤ n := Nat.sub_le n m
  obtain ⟨screen, saved, bottom, ran, region, length, rows⟩ :=
    @windowedChange_run height n m least cols t tall margins old some_ next
  have scrolled := scrollUp_rows margins room small
  rw [ran]
  unfold Follows
  dsimp only
  have around : Margins (bottom + 1) { t.scrollUp (n - m) with screen, saved, row := t.row - (n - m), top := 0, bottom } :=
    ⟨rfl, rfl⟩
  obtain ⟨fresh, above⟩ := lineFeed_below around (by show bottom + 1 ≤ screen.length; omega)
    (by show t.row - (n - m) < bottom + 1; omega) (by
      intro low
      have below : t.row - (n - m) + 1 < bottom + 1 := low
      show screen[t.row - (n - m) + 1]? = some []
      rw [rows]
      split
      · rfl
      · rw [scrolled]
        split
        · exact blank _ (by omega) (by omega)
        · rw [if_pos (by omega)])
  have kept : screen.take (t.row - (n - m) + 1) = (t.scrollUp (n - m)).screen.take (t.row - (n - m) + 1) := by
    refine ext_getElem? ?_
    intro y
    rw [getElem?_take, getElem?_take]
    split
    · rw [rows, if_neg (by omega)]
    · rfl
  have lines : (t.scrollUp (n - m)).history ++ screen.take (t.row - (n - m) + 1) =
      t.history ++ t.screen.take (t.row - (n - m) + 1 + (n - m)) := by
    rw [kept, scrollUp_above margins room small (by omega)]
  constructor
  · rintro ⟨-, -, same⟩
    have same := above.symm.trans same
    have count := congrArg List.length (lines.symm.trans same)
    simp only [length_append, length_take] at count
    omega
  · intro enough
    refine ⟨?_, fresh, ?_⟩
    · show screen[t.row - (n - m)]? = _
      rw [rows, if_neg (by omega), scrolled, if_pos (by omega), Nat.sub_add_cancel enough]
    · refine above.trans (lines.trans ?_)
      rw [show t.row - (n - m) + 1 + (n - m) = t.row + 1 by omega]

end

section Windowed

theorem windowed_scrolling {fixed : Nat} (windowed : (ScreenPartition.forBottomFixedHeight height fixed).windowed) :
    0 < fixed ∧ fixed < height ∧ ScreenPartition.forBottomFixedHeight height fixed = scrolling height (height - fixed) := by
  have parts : 0 < fixed ∧ fixed < height := by
    by_contra outside
    unfold ScreenPartition.forBottomFixedHeight at windowed
    dsimp only at windowed
    split at windowed
    · cases windowed
    · rw [if_pos (by omega)] at windowed
      cases windowed
  exact ⟨parts.1, parts.2, forBottomFixedHeight_scrolling parts.2⟩

/-- A change from one windowed partition to another of the same terminal keeps the insertion point exactly if the fixed
    region grows by no more rows than there are above the cursor. -/
theorem repartition_follows_iff {height fixed fixed' least cols : Nat} {t : Tty}
    (old : (ScreenPartition.forBottomFixedHeight height fixed).windowed)
    (next : (ScreenPartition.forBottomFixedHeight height fixed').windowed) (tall : t.screen.length = height)
    (top : t.top = 0) (bottom : t.bottom = bottomMargin (.forBottomFixedHeight height fixed))
    (inside : t.row ≤ bottomMargin (.forBottomFixedHeight height fixed))
    (blank : ∀ y, t.row < y → y ≤ bottomMargin (.forBottomFixedHeight height fixed) → t.screen[y]? = some []) :
    Follows least cols t (t.run least cols (emitRepartition
      (.from_ (.forBottomFixedHeight height fixed) (.forBottomFixedHeight height fixed')))) ↔
      fixed' - fixed ≤ t.row := by
  obtain ⟨some_, less, old⟩ := windowed_scrolling old
  obtain ⟨some', less', next⟩ := windowed_scrolling next
  rw [old] at bottom inside blank ⊢
  rw [next]
  rw [bottomMargin_scrolling (by omega)] at bottom inside blank
  rw [windowedChange_follows tall ⟨top, by omega⟩ (by omega) (by omega) (by omega) (by omega)
    fun y low high => blank y low (by omega)]
  omega

end Windowed

/-- Four rows of which the first holds the last line, and two of which scroll after the change. -/
def topLine : Tty :=
  { history := [], screen := [['a'], [], [], []], row := 0, col := 1, top := 0, bottom := 2 }

theorem topLine_lost :
    (topLine.run 2 9 (emitRepartition (.from_ (.forBottomFixedHeight 4 1) (.forBottomFixedHeight 4 2)))).screen =
        [[], [], [], []] ∧ ¬Follows 2 9 topLine
        (topLine.run 2 9 (emitRepartition (.from_ (.forBottomFixedHeight 4 1) (.forBottomFixedHeight 4 2)))) := by
  refine ⟨by decide, ?_⟩
  rintro ⟨-, -, same⟩
  exact absurd same (by decide)

/-- With the line one row further down nothing is lost. -/
def secondLine : Tty :=
  { history := [], screen := [['a'], ['b'], [], []], row := 1, col := 1, top := 0, bottom := 2 }

theorem secondLine_followed : Follows 2 9 secondLine
      (secondLine.run 2 9 (emitRepartition (.from_ (.forBottomFixedHeight 4 1) (.forBottomFixedHeight 4 2)))) := by
  refine (repartition_follows_iff (by decide) (by decide) rfl rfl rfl (by decide) ?_).mpr (by decide)
  intro y low high
  have row : secondLine.row = 1 := rfl
  have high : y ≤ 2 := high
  obtain rfl : y = 2 := by omega
  rfl

end Nxt.Ui.Regional

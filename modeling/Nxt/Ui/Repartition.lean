import Nxt.Ui.Scrollback

/- Changes of the partition keep what was written, and so does every run of changes, blocks and
   drawing of the fixed region, as long as the terminal takes the margins of every region. -/
namespace Nxt.Ui.Regional
open List
variable {height n cols least : Nat} {fresh : Bool} {written : List Text} {t : Tty}

/-- The partition whose first `n` rows scroll; nothing is fixed when these are all. -/
def scrolling (height n : Nat) : ScreenPartition :=
  if n = height then
    { terminal := ⟨0, height⟩, kind := .hiddenFixedRegion, scroll := none, bottomFixed := ⟨height, height⟩ }
  else
    { terminal := ⟨0, height⟩, kind := .windowedFixedRegion, scroll := some ⟨⟨0, n⟩⟩
      bottomFixed := ⟨n, height⟩ }

theorem scrolling_hidden : scrolling height height =
    { terminal := ⟨0, height⟩, kind := .hiddenFixedRegion, scroll := none
      bottomFixed := ⟨height, height⟩ } := if_pos rfl

theorem scrolling_windowed (less : n < height) : scrolling height n =
    { terminal := ⟨0, height⟩, kind := .windowedFixedRegion, scroll := some ⟨⟨0, n⟩⟩
      bottomFixed := ⟨n, height⟩ } := if_neg less.ne

theorem forBottomFixedHeight_scrolling {fixedHeight : Nat} (part : fixedHeight < height) :
    ScreenPartition.forBottomFixedHeight height fixedHeight = scrolling height (height - fixedHeight) := by
  have small := Nat.min_eq_left part.le
  by_cases none : fixedHeight = 0
  · subst none
    rw [ScreenPartition.forBottomFixedHeight_hidden small, Nat.sub_zero, scrolling_hidden]
  · rw [ScreenPartition.forBottomFixedHeight_windowed (by omega) (by omega),
      scrolling_windowed (by omega), small]

theorem scrolling_chromeStart (inside : n ≤ height) : (scrolling height n).chromeStart = n := by
  rcases Nat.eq_or_lt_of_le inside with rfl | less
  · rw [scrolling_hidden]
    rfl
  · rw [scrolling_windowed less]
    rfl

section Programs

theorem clearRows_run {start len : Nat} (inside : start + len ≤ t.screen.length) :
    ∃ screen row col, t.run least cols (clearRows ⟨start, start + len⟩) = { t with screen, row, col } ∧
      screen.length = t.screen.length ∧
      ∀ y, screen[y]? = if start ≤ y ∧ y < start + len then some [] else t.screen[y]? := by
  induction len generalizing start t with
  | zero =>
    refine ⟨t.screen, t.row, t.col, ?_, rfl, ?_⟩
    · unfold clearRows
      rw [Nat.add_zero, Nat.sub_self]
      rfl
    · intro y
      rw [if_neg (by omega)]
  | succ len ih =>
    have shape : clearRows ⟨start, start + (len + 1)⟩ =
        [.moveToLeft start, .clearLine] ++ clearRows ⟨start + 1, start + 1 + len⟩ := by
      unfold clearRows
      simp only [Nat.add_sub_cancel_left, List.range'_succ, flatMap_cons]
    have first : t.run least cols [.moveToLeft start, .clearLine] =
        { t with screen := t.screen.set start [], row := start, col := 0 } := by
      show { t with screen := t.screen.set (min start (t.screen.length - 1)) []
                    row := min start (t.screen.length - 1), col := 0 } = _
      rw [Nat.min_eq_left (by omega)]
    obtain ⟨screen, row, col, ran, length, rows⟩ :=
      ih (t := { t with screen := t.screen.set start [], row := start, col := 0 })
        (by show start + 1 + len ≤ (t.screen.set start []).length; rw [length_set]; omega)
    refine ⟨screen, row, col, ?_, ?_, ?_⟩
    · rw [shape, run_append, first, ran]
    · rw [length]
      exact length_set
    · intro y
      rw [rows]
      show (if start + 1 ≤ y ∧ y < start + 1 + len then some [] else (t.screen.set start [])[y]?) = _
      by_cases here : start = y
      · subst here
        rw [if_neg (by omega), if_pos (by omega), getElem?_set_self (by omega)]
      · rw [getElem?_set_ne here]
        by_cases later : start + 1 ≤ y ∧ y < start + 1 + len
        · rw [if_pos later, if_pos (by omega)]
        · rw [if_neg later, if_neg (by omega)]

def clearing (region : VerticalRegion) : List Command :=
  if region.top = region.bottomExclusive then []
  else [.saveCursor] ++ clearRows region ++ [.restoreCursor]

theorem clearing_run {start : Nat} (inside : start ≤ t.screen.length) :
    ∃ screen saved, t.run least cols (clearing ⟨start, t.screen.length⟩) = { t with screen, saved } ∧
      screen.length = t.screen.length ∧
      ∀ y, screen[y]? = if start ≤ y ∧ y < t.screen.length then some [] else t.screen[y]? := by
  unfold clearing
  by_cases none : start = t.screen.length
  · rw [if_pos none]
    refine ⟨t.screen, t.saved, rfl, rfl, ?_⟩
    intro y
    rw [if_neg (by omega)]
  · rw [if_neg none]
    obtain ⟨screen, row, col, ran, length, rows⟩ :=
      clearRows_run (t := { t with saved := (t.row, t.col) })
        
        (by show start + (t.screen.length - start) ≤ t.screen.length; omega)
    rw [Nat.add_sub_cancel' inside] at ran rows
    refine ⟨screen, (t.row, t.col), ?_, length, rows⟩
    rw [run_append, run_append]
    show (Tty.run least cols { t with saved := (t.row, t.col) }
      (clearRows ⟨start, t.screen.length⟩)).run least cols [.restoreCursor] = _
    rw [ran]
    rfl

def marginProgram (next : ScreenPartition) : List Command :=
  [.saveCursor, marginCommand next.scroll, .restoreCursor]

theorem margins_run (tall : t.screen.length = height) (some_ : 0 < n) (inside : n ≤ height)
    (taken : n = height ∨ least ≤ n) :
    t.run least cols (marginProgram (scrolling height n)) =
      { t with top := 0, bottom := n - 1, saved := (t.row, t.col) } := by
  rcases Nat.eq_or_lt_of_le inside with rfl | less
  · rw [scrolling_hidden]
    show { t with top := 0, bottom := t.screen.length - 1, saved := (t.row, t.col) } = _
    rw [tall]
  · rw [scrolling_windowed less]
    have accepts : 0 + least ≤ n - 1 + 1 ∧ n - 1 < t.screen.length := by omega
    show (Tty.exec least cols { t with saved := (t.row, t.col) } (.setScrollRegion ⟨⟨0, n⟩⟩)).exec least cols
      .restoreCursor = _
    have step : Tty.exec least cols { t with saved := (t.row, t.col) } (.setScrollRegion ⟨⟨0, n⟩⟩) =
        { t with saved := (t.row, t.col), top := 0, bottom := n - 1, row := 0, col := 0 } := if_pos accepts
    rw [step]
    rfl

def reserveProgram (r : Nat) : List Command := if r > 0 then [.scrollUp r, .moveUp r] else []

section
variable (margins : Margins n t) (room : n ≤ t.screen.length)
include margins room

theorem scrollUp_zero : t.scrollUp 0 = t := by
  obtain ⟨screen, history⟩ := scrollUp_screen margins room (Nat.zero_le n)
  have same : (t.scrollUp 0).screen = t.screen := by
    rw [screen, drop_zero, replicate_zero, append_nil, take_append_drop]
  have kept : (t.scrollUp 0).history = t.history := by
    rw [history, take_zero, append_nil]
  calc t.scrollUp 0 = { t with screen := (t.scrollUp 0).screen, history := (t.scrollUp 0).history } := rfl
    _ = t := by rw [same, kept]

theorem reserve_run (r : Nat) :
    t.run least cols (reserveProgram r) = (t.scrollUp r).withRow (t.row - r) := by
  unfold reserveProgram
  by_cases some_ : r > 0
  · rw [if_pos some_]
    show (t.scrollUp r).withRow (if t.top ≤ t.row then max (t.row - r) t.top else t.row - r) = _
    rw [margins.1, if_pos (Nat.zero_le _), Nat.max_zero]
  · have none : r = 0 := by omega
    rw [if_neg some_, none, scrollUp_zero margins room]
    rfl

theorem emitRepartition_run (change : Repartition) :
    t.run least cols (emitRepartition change) =
      (((t.scrollUp change.reservation).withRow (t.row - change.reservation)).run least cols
        (marginProgram change.next ++ clearing change.chromeToClear)).run least cols
          (if change.release > 0 && change.next.hidden then
            [.scrollDown change.release, .moveDown change.release] else []) := by
  have shape : emitRepartition change =
      [.resetGraphics] ++ reserveProgram change.reservation ++
        (marginProgram change.next ++ clearing change.chromeToClear) ++
        (if change.release > 0 && change.next.hidden then
          [.scrollDown change.release, .moveDown change.release] else []) := by
    unfold emitRepartition reserveProgram marginProgram clearing
    simp only [append_assoc]
  have reserved : t.run least cols ([.resetGraphics] ++ reserveProgram change.reservation) =
      (t.scrollUp change.reservation).withRow (t.row - change.reservation) := reserve_run margins room _
  rw [shape, run_append _ t, run_append _ t, reserved]

end

end Programs

section Changes

theorem Held.remargin (held : Held height n fresh written t) {m : Nat} (some_ : 0 < m) (inside : m ≤ height)
    (taken : m = height ∨ least ≤ m) (row : t.row < m) {start : Nat} (clear : start ≤ height)
    (cleared : min n m ≤ start) (blank : ∀ y, n ≤ y → y < m → y < start → t.screen[y]? = some []) :
    ∃ t', t.run least cols (marginProgram (scrolling height m) ++ clearing ⟨start, height⟩) = t' ∧
      Held height m fresh written t' ∧ Margins m t' ∧ t'.row = t.row ∧
      ∀ y, start ≤ y → y < height → t'.screen[y]? = some [] := by
  have tall := held.tall
  obtain ⟨screen, saved, ran, length, rows⟩ := clearing_run
    (t := { t with top := 0, bottom := m - 1, saved := (t.row, t.col) }) (by show start ≤ t.screen.length; omega)
  have rows' : ∀ y, screen[y]? = if start ≤ y ∧ y < height then some [] else t.screen[y]? := by
    intro y
    rw [rows]
    show (if start ≤ y ∧ y < t.screen.length then _ else _) = _
    rw [tall]
  refine ⟨_, rfl, ?_⟩
  rw [run_append, margins_run tall some_ inside taken]
  have ran' : Tty.run least cols { t with top := 0, bottom := m - 1, saved := (t.row, t.col) }
      (clearing ⟨start, height⟩) =
        { t with top := 0, bottom := m - 1, screen, saved } := by rw [← tall]; exact ran
  rw [ran']
  have moved : Held height (min n m) fresh written
      { t with top := 0, bottom := m - 1, screen, saved } := by
    have narrow := held.narrow (Nat.min_le_left n m) (by have := held.inside; omega)
    constructor
    · exact length.trans tall
    · exact narrow.fits
    · exact narrow.inside
    · intro y low high
      show screen[y]? = some []
      rw [rows', if_neg (by omega)]
      exact narrow.below y low high
    · intro is_fresh
      obtain ⟨at_row, col⟩ := narrow.fresh is_fresh
      refine ⟨?_, col⟩
      show screen[t.row]? = some []
      have low := narrow.inside
      rw [rows', if_neg (by omega)]
      exact at_row
    · show (t.history ++ screen.take (min n m)).filter shown = _
      have same : screen.take (min n m) = t.screen.take (min n m) := by
        refine ext_getElem? ?_
        intro y
        rw [getElem?_take, getElem?_take]
        split
        · rw [rows', if_neg (by omega)]
        · rfl
      rw [same]
      exact narrow.kept
  refine ⟨moved.widen (Nat.min_le_right n m) inside ?_, ⟨rfl, ?_⟩, rfl, ?_⟩
  · intro y low high
    show screen[y]? = some []
    rw [rows']
    by_cases past : start ≤ y
    · rw [if_pos ⟨past, by omega⟩]
    · rw [if_neg (by omega)]
      exact blank y (by omega) high (by omega)
  · show m - 1 + 1 = m
    omega
  · intro y low high
    show screen[y]? = some []
    rw [rows', if_pos ⟨low, high⟩]

theorem Held.release (held : Held height height fresh written t) (margins : Margins height t) {r : Nat}
    (row : t.row + r < height) (blank : ∀ y, height - r ≤ y → y < height → t.screen[y]? = some []) :
    Held height height fresh written (t.run least cols [.scrollDown r, .moveDown r]) ∧
      Margins height (t.run least cols [.scrollDown r, .moveDown r]) := by
  have tall := held.tall
  have bottom := margins.2
  have region : t.region = t.screen := by
    rw [margins.region, take_of_length_le tall.le]
  have screen : (t.scrollDown r).screen = replicate r [] ++ t.screen.take (height - r) := by
    unfold Tty.scrollDown
    simp only [region, margins.1, take_zero, nil_append]
    rw [drop_eq_nil_of_le (by omega), append_nil, tall, Nat.min_eq_left (by omega)]
  have moved : t.run least cols [.scrollDown r, .moveDown r] =
      { t.scrollDown r with row := t.row + r } := by
    show { t.scrollDown r with row := if t.row ≤ t.bottom then min (t.row + r) t.bottom
                                      else min (t.row + r) ((t.scrollDown r).screen.length - 1) } = _
    rw [if_pos (by omega), Nat.min_eq_left (by omega)]
  rw [moved]
  have rows : ∀ y, r ≤ y → y < height → (t.scrollDown r).screen[y]? = t.screen[y - r]? := by
    intro y low high
    rw [screen, getElem?_append_right (by rw [length_replicate]; exact low),
      length_replicate, getElem?_take, if_pos (by omega)]
  refine ⟨⟨?_, le_rfl, row, ?_, ?_, ?_⟩, margins⟩
  · show (t.scrollDown r).screen.length = height
    rw [screen, length_append, length_replicate, length_take]
    omega
  · intro y low high
    have past : t.row + r < y := low
    show (t.scrollDown r).screen[y]? = some []
    rw [rows y (by omega) high]
    exact held.below _ (by omega) (by omega)
  · intro is_fresh
    obtain ⟨at_row, col⟩ := held.fresh is_fresh
    refine ⟨?_, col⟩
    show (t.scrollDown r).screen[t.row + r]? = some []
    rw [rows _ (by omega) row, Nat.add_sub_cancel]
    exact at_row
  · show (t.history ++ (t.scrollDown r).screen.take height).filter shown = _
    have length : (replicate r ([] : Text) ++ t.screen.take (height - r)).length = height := by
      rw [length_append, length_replicate, length_take]
      omega
    have none : (replicate r ([] : Text)).filter shown = [] := by
      refine filter_blank ?_
      intro y line at_
      exact eq_of_mem_replicate (mem_of_getElem? at_)
    rw [screen, take_of_length_le length.le, filter_append, filter_append, none,
      nil_append, ← held.kept, filter_append]
    congr 1
    refine (take_blank (Nat.sub_le height r) ?_).symm
    intro y low high _
    exact blank y low high

end Changes

section Partitions
variable {m : Nat}

theorem bottomMargin_scrolling (less : n < height) : bottomMargin (scrolling height n) = n - 1 := by
  rw [scrolling_windowed less]
  rfl

theorem from_reservation (some_ : 0 < m) (old : n ≤ height) (next : m ≤ height) :
    (Repartition.from_ (scrolling height n) (scrolling height m)).reservation = n - m := by
  unfold Repartition.reservation Repartition.from_
  rcases Nat.eq_or_lt_of_le next with rfl | less
  · have hidden : (scrolling m m).windowed = false := by
      rw [scrolling_hidden]
      rfl
    simp only [hidden, Bool.not_false, if_true]
    omega
  · have windowed : (scrolling height m).windowed = true := by
      rw [scrolling_windowed less]
      rfl
    simp only [windowed, Bool.not_true, Bool.false_eq_true, if_false]
    rcases Nat.eq_or_lt_of_le old with rfl | less'
    · have hidden : (scrolling n n).windowed = false := by
        rw [scrolling_hidden]
        rfl
      simp only [hidden, Bool.not_false, if_true]
      rw [scrolling_windowed less]
      rfl
    · have windowed' : (scrolling height n).windowed = true := by
        rw [scrolling_windowed less']
        rfl
      simp only [windowed', Bool.not_true, Bool.false_eq_true, if_false, bottomMargin_scrolling less,
        bottomMargin_scrolling less']
      split <;> omega

theorem from_clear (old : n ≤ height) (next : m ≤ height) :
    (Repartition.from_ (scrolling height n) (scrolling height m)).chromeToClear = ⟨min m n, height⟩ := by
  have start := scrolling_chromeStart next
  have start' := scrolling_chromeStart old
  unfold Repartition.chromeToClear Repartition.from_
  simp only [Bool.false_eq_true, if_false, start, start']
  rcases Nat.eq_or_lt_of_le next with rfl | less
  · have hidden : (scrolling m m).hidden = true := by
      rw [scrolling_hidden]
      rfl
    rw [if_pos hidden, Nat.min_eq_right old]
    rcases Nat.eq_or_lt_of_le old with rfl | less'
    · rw [scrolling_hidden]
    · rw [scrolling_windowed less']
  · have windowed : (scrolling height m).hidden = false := by
      rw [scrolling_windowed less]
      rfl
    rw [if_neg (by simp [windowed]), scrolling_windowed less]
    show (⟨max 0 (min (min m n) height), height⟩ : VerticalRegion) = _
    rw [Nat.zero_max, Nat.min_eq_left (by omega)]

theorem from_release (old : n ≤ height) :
    (Repartition.from_ (scrolling height n) (scrolling height height)).release = height - n := by
  unfold Repartition.release Repartition.from_
  have hidden : (scrolling height height).hidden = true := by
    rw [scrolling_hidden]
    rfl
  rcases Nat.eq_or_lt_of_le old with rfl | less
  · have still : (scrolling n n).windowed = false := by
      rw [scrolling_hidden]
      rfl
    simp only [still, Bool.false_eq_true, if_false, Bool.not_false, if_true, Nat.sub_self]
  · have windowed : (scrolling height n).windowed = true := by
      rw [scrolling_windowed less]
      rfl
    simp only [windowed, hidden, Bool.false_eq_true, if_false, Bool.not_true, if_true]
    rw [scrolling_windowed less]
    rfl

theorem scrolling_hidden_iff (next : m ≤ height) : (scrolling height m).hidden = decide (m = height) := by
  rcases Nat.eq_or_lt_of_le next with rfl | less
  · rw [scrolling_hidden, decide_eq_true rfl]
    rfl
  · rw [scrolling_windowed less, decide_eq_false less.ne]
    rfl

theorem Held.change (held : Held height n fresh written t) (margins : Margins n t) (some_ : 0 < m)
    (next : m ≤ height) (taken : m = height ∨ least ≤ m) : Held height m fresh written
        (t.run least cols (emitRepartition (.from_ (scrolling height n) (scrolling height m)))) ∧
      Margins m (t.run least cols (emitRepartition (.from_ (scrolling height n) (scrolling height m)))) := by
  have old := held.fits
  have inside := held.inside
  have room : n ≤ t.screen.length := held.tall ▸ old
  rw [emitRepartition_run margins room, from_reservation some_ old next, from_clear old next]
  obtain ⟨kept, _⟩ := held.reserve margins (r := n - m) (by omega)
  rw [show n - (n - m) = min n m by omega] at kept
  have small := kept.inside
  obtain ⟨t', ran, kept', margins', row', blank⟩ := kept.remargin some_ next taken
    (by omega) (show min m n ≤ height by omega) (by omega) (by intro y low _ high; omega)
  have program : marginProgram (Repartition.from_ (scrolling height n) (scrolling height m)).next =
    marginProgram (scrolling height m) := rfl
  rw [program, ran]
  have hides : (Repartition.from_ (scrolling height n) (scrolling height m)).next.hidden =
    decide (m = height) := scrolling_hidden_iff next
  rw [hides]
  by_cases hidden : m = height
  · subst hidden
    rw [from_release old, decide_eq_true rfl, Bool.and_true]
    by_cases more : m - n > 0
    · rw [if_pos (decide_eq_true more)]
      refine kept'.release margins' (r := m - n) ?_ ?_
      · rw [row']
        show t.row - (n - m) + (m - n) < m
        omega
      · intro y low high
        exact blank y (by omega) high
    · rw [if_neg (by simp only [decide_eq_true_eq]; exact more)]
      exact ⟨kept', margins'⟩
  · rw [decide_eq_false hidden, Bool.and_false]
    exact ⟨kept', margins'⟩

theorem Held.attach (held : Held height height fresh written t) (margins : Margins height t) (some_ : 0 < m)
    (next : m ≤ height) (taken : m = height ∨ least ≤ m) : Held height m fresh written
        (t.run least cols (emitRepartition (.initial (scrolling height m) (some t.row)))) ∧
      Margins m (t.run least cols (emitRepartition (.initial (scrolling height m) (some t.row)))) := by
  have inside := held.inside
  have room : height ≤ t.screen.length := held.tall.ge
  have reservation : (Repartition.initial (scrolling height m) (some t.row)).reservation = t.row - (m - 1) := by
    unfold Repartition.reservation Repartition.initial
    rcases Nat.eq_or_lt_of_le next with rfl | less
    · have hidden : (scrolling m m).windowed = false := by
        rw [scrolling_hidden]
        rfl
      simp only [hidden, Bool.not_false, if_true]
      omega
    · have windowed : (scrolling height m).windowed = true := by
        rw [scrolling_windowed less]
        rfl
      simp only [windowed, Bool.not_true, Bool.false_eq_true, if_false, if_true, bottomMargin_scrolling less]
      split <;> omega
  have clear : (Repartition.initial (scrolling height m) (some t.row)).chromeToClear = ⟨height, height⟩ := by
    have bottom : (scrolling height m).terminal.bottomExclusive = height := by
      rcases Nat.eq_or_lt_of_le next with rfl | less
      · rw [scrolling_hidden]
      · rw [scrolling_windowed less]
    unfold Repartition.chromeToClear Repartition.initial
    simp only [if_true, bottom]
  rw [emitRepartition_run margins room, reservation, clear]
  obtain ⟨kept, below⟩ := held.reserve margins (r := t.row - (m - 1)) (by omega)
  obtain ⟨t', ran, kept', margins', _, _⟩ := kept.remargin some_ next taken
    (by show t.row - (t.row - (m - 1)) < m; omega) le_rfl (by omega)
    (by intro y low high _; exact below y low (by omega))
  have program : marginProgram (Repartition.initial (scrolling height m) (some t.row)).next =
    marginProgram (scrolling height m) := rfl
  have none : (Repartition.initial (scrolling height m) (some t.row)).release = 0 := rfl
  rw [program, ran, none]
  exact ⟨kept', margins'⟩

end Partitions
section Sessions

structure Faithful (s : Session) : Prop where
  kept : (s.tty.history ++ s.tty.screen.take s.partition.chromeStart).filter shown = s.written.filter shown
  cursor : s.tty.row < s.partition.chromeStart

/-- A hidden or windowed fixed region of that terminal. -/
def Fixes (height fixedHeight : Nat) : Prop := fixedHeight < height

/-- The terminal takes the margins: the region that scrolls is the whole screen or not too small. -/
def Taken (least height fixedHeight : Nat) : Prop := fixedHeight = 0 ∨ least ≤ height - fixedHeight

/-- Changes among hidden and windowed partitions, and blocks whose lines fit. -/
def Step.Allowed (height cols : Nat) : Step → Prop
  | .repartition fixedHeight => Fixes height fixedHeight
  | .block text => ∀ line ∈ text.splitOn '\n', line.length ≤ cols
  | .paint _ => True

def Step.Takes (least height : Nat) : Step → Prop
  | .repartition fixedHeight => Taken least height fixedHeight
  | _ => True

def Sound (height : Nat) (s : Session) : Prop :=
  ∃ n, 0 < n ∧ n ≤ height ∧ s.partition = scrolling height n ∧
    Held height n (!s.append.afterBlock) s.written s.tty ∧ Margins n s.tty

theorem Sound.faithful {s : Session} (sound : Sound height s) : Faithful s := by
  obtain ⟨n, _, inside, partition, held, _⟩ := sound
  have start : s.partition.chromeStart = n := by rw [partition, scrolling_chromeStart inside]
  exact ⟨start ▸ held.kept, start ▸ held.inside⟩

theorem Held.paint (held : Held height n fresh written t) (rows : List Text) :
    Held height n fresh written { t with screen := paintRows t.screen rows n } := by
  have above : ∀ y, y < n → (paintRows t.screen rows n)[y]? = t.screen[y]? := by
    intro y low
    unfold paintRows
    rw [getElem?_mapIdx]
    cases t.screen[y]? with
    | none => rfl
    | some line => exact congrArg some (if_neg (by omega))
  refine ⟨?_, held.fits, held.inside, ?_, ?_, ?_⟩
  · show (paintRows t.screen rows n).length = height
    unfold paintRows
    rw [length_mapIdx]
    exact held.tall
  · exact fun y low high => (above y high).trans (held.below y low high)
  · intro is_fresh
    obtain ⟨blank, col⟩ := held.fresh is_fresh
    exact ⟨(above t.row held.inside).trans blank, col⟩
  · have same : (paintRows t.screen rows n).take n = t.screen.take n := by
      refine ext_getElem? ?_
      intro y
      rw [getElem?_take, getElem?_take]
      split
      · next low => exact above y low
      · rfl
    show (t.history ++ (paintRows t.screen rows n).take n).filter shown = _
    rw [same]
    exact held.kept

theorem Sound.step {s : Session} (sound : Sound height s) {step : Step} (allowed : step.Allowed height cols)
    (takes : step.Takes least height) : Sound height (s.step least cols height step) := by
  obtain ⟨n, some_, inside, partition, held, margins⟩ := sound
  cases step with
  | repartition fixedHeight =>
    have part : fixedHeight < height := allowed
    have next : height - fixedHeight ≤ height := Nat.sub_le _ _
    have taken : height - fixedHeight = height ∨ least ≤ height - fixedHeight := by
      rcases takes with none | enough
      · exact .inl (by omega)
      · exact .inr enough
    obtain ⟨held', margins'⟩ := held.change margins (by omega) next taken
    refine ⟨height - fixedHeight, by omega, next, forBottomFixedHeight_scrolling part, ?_⟩
    show Held height (height - fixedHeight) (!s.append.afterBlock) s.written
        (s.tty.run least cols (emitRepartition (.from_ s.partition _))) ∧
      Margins (height - fixedHeight) (s.tty.run least cols (emitRepartition (.from_ s.partition _)))
    rw [partition, forBottomFixedHeight_scrolling part]
    exact ⟨held', margins'⟩
  | block text =>
    obtain ⟨held', margins'⟩ := held.block margins least allowed
    exact ⟨n, some_, inside, partition, held', margins'⟩
  | paint rows =>
    refine ⟨n, some_, inside, partition, ?_, margins⟩
    show Held height n (!s.append.afterBlock) s.written
      { s.tty with screen := paintRows s.tty.screen rows s.partition.chromeStart }
    rw [partition, scrolling_chromeStart inside]
    exact held.paint rows

theorem Sound.run {s : Session} (sound : Sound height s) {steps : List Step}
    (allowed : ∀ step ∈ steps, step.Allowed height cols) (takes : ∀ step ∈ steps, step.Takes least height) :
    Sound height (s.run least cols height steps) := by
  induction steps generalizing s with
  | nil => exact sound
  | cons step rest ih =>
    exact ih (sound.step (allowed step mem_cons_self) (takes step mem_cons_self))
      (fun other inside => allowed other (mem_cons_of_mem _ inside))
      fun other inside => takes other (mem_cons_of_mem _ inside)

/-- The screen before anything was installed: nothing is shown from the cursor's row on. -/
structure Ready (height : Nat) (t : Tty) : Prop where
  tall : t.screen.length = height
  top : t.top = 0
  bottom : t.bottom + 1 = height
  inside : t.row < height
  col : t.col = 0
  blank : ∀ y, t.row ≤ y → y < height → t.screen[y]? = some []

theorem Ready.held (ready : Ready height t) :
    Held height height true (t.history ++ t.screen) t where
  tall := ready.tall
  fits := le_rfl
  inside := ready.inside
  below y low high := ready.blank y low.le high
  fresh _ := ⟨ready.blank t.row le_rfl ready.inside, ready.col⟩
  kept := by rw [take_of_length_le ready.tall.le]

/-- Over every run whose margins the terminal takes, nothing written is lost, doubled, put out of
    order or overwritten, and the cursor stays in the rows that scroll. -/
theorem scrollback_kept (ready : Ready height t) {fixedHeight : Nat} (fixes : Fixes height fixedHeight)
    (taken : Taken least height fixedHeight) {steps : List Step} (allowed : ∀ step ∈ steps, step.Allowed height cols)
    (takes : ∀ step ∈ steps, step.Takes least height) : Faithful
    ((Session.attach least cols height fixedHeight t (t.history ++ t.screen)).run least cols height steps) := by
  have part : fixedHeight < height := fixes
  have next : height - fixedHeight ≤ height := Nat.sub_le _ _
  have enough : height - fixedHeight = height ∨ least ≤ height - fixedHeight := by
    rcases taken with none | enough
    · exact .inl (by omega)
    · exact .inr enough
  refine (Sound.run ?_ allowed takes).faithful
  obtain ⟨held, margins⟩ := ready.held.attach ⟨ready.top, ready.bottom⟩ (by omega) next enough
  refine ⟨height - fixedHeight, by omega, next, forBottomFixedHeight_scrolling part, ?_⟩
  show Held height (height - fixedHeight) true (t.history ++ t.screen)
      (t.run least cols (emitRepartition (.initial _ (some t.row)))) ∧
    Margins (height - fixedHeight) (t.run least cols (emitRepartition (.initial _ (some t.row))))
  rw [forBottomFixedHeight_scrolling part]
  exact ⟨held, margins⟩

def blankTty (height : Nat) : Tty where
  history := []
  screen := replicate height []
  row := 0
  col := 0
  top := 0
  bottom := height - 1

theorem blankTty_ready (some_ : 0 < height) : Ready height (blankTty height) where
  tall := length_replicate
  top := rfl
  bottom := by
    show height - 1 + 1 = height
    omega
  inside := some_
  col := rfl
  blank y _ high := by
    show (replicate height ([] : Text))[y]? = some []
    rw [getElem?_replicate, if_pos high]

/-- Growing, hiding and coming back between blocks. -/
theorem sample_kept : Faithful ((Session.attach 2 8 4 1 (blankTty 4) ([] ++ replicate 4 [])).run 2 8 4
    [.block ['a', '\n', 'b'], .repartition 2, .paint [['x'], ['y']], .block ['c'], .repartition 0,
      .block ['d'], .repartition 2]) := by
  refine scrollback_kept (blankTty_ready (by decide)) (show 1 < 4 by decide) (.inr (by decide)) ?_ ?_
  · intro step inside
    simp only [mem_cons, not_mem_nil, or_false] at inside
    rcases inside with rfl | rfl | rfl | rfl | rfl | rfl | rfl
    · show ∀ line ∈ ['a', '\n', 'b'].splitOn '\n', line.length ≤ 8
      decide
    · show 2 < 4
      decide
    · trivial
    · show ∀ line ∈ ['c'].splitOn '\n', line.length ≤ 8
      decide
    · show 0 < 4
      decide
    · show ∀ line ∈ ['d'].splitOn '\n', line.length ≤ 8
      decide
    · show 2 < 4
      decide
  · intro step inside
    simp only [mem_cons, not_mem_nil, or_false] at inside
    rcases inside with rfl | rfl | rfl | rfl | rfl | rfl | rfl
    · trivial
    · exact .inr (by decide)
    · trivial
    · trivial
    · exact .inl rfl
    · trivial
    · exact .inr (by decide)

/-- One row is left to scroll and the terminal takes no margins around it: the second block goes
    into the fixed region and is drawn over. -/
theorem one_row_lost :
    let s := (Session.attach 2 8 2 1 (blankTty 2) ([] ++ replicate 2 [])).run 2 8 2
      [.block ['a'], .block ['b'], .paint [['x']]]
    Ready 2 (blankTty 2) ∧ Fixes 2 1 ∧ ¬Faithful s ∧ s.tty.row = 1 ∧ s.partition.chromeStart = 1 ∧
      ['b'] ∈ s.written ∧ ['b'] ∉ s.tty.history ++ s.tty.screen := by
  intro s
  refine ⟨blankTty_ready (by decide), (by decide : 1 < 2), ?_, by decide, by decide, by decide, by decide⟩
  intro faithful
  have cursor := faithful.cursor
  exact absurd cursor (by decide)

end Sessions
end Nxt.Ui.Regional

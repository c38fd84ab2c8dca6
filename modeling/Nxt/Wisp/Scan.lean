import Nxt.Wisp.Forward

/- The scans. Copying a word keeps `Inv`; so does writing the copy back over the word it was
   made from. Each row and each word is scanned once, which bounds the loops of `run`. -/
namespace Nxt.Wisp
open Nxt.Lib List

def Held (h : Heap) (o : Word) : Prop :=
  ∀ a, addr? o = some a → eraOf o = h.era ∧ h.Reachable a

/-- The collector writes forwarding marks into the old tables and nowhere else. -/
def TablesOnly (s u : Tidy) : Prop := u.old = { s.old with vat := u.old.vat }

theorem TablesOnly.trans {s u v : Tidy} (first : TablesOnly s u) (second : TablesOnly u v) : TablesOnly s v := by
  unfold TablesOnly at *
  rw [second, first]

structure Grows (s u : Tidy) : Prop where
  old : TablesOnly s u
  scan : u.scan = s.scan
  wordScan : u.wordScan = s.wordScan
  next : ∀ k, s.next.get k <+: u.next.get k
  words : s.words <+: u.words

theorem Grows.refl (s : Tidy) : Grows s s where
  old := rfl
  scan := rfl
  wordScan := rfl
  next _ := prefix_rfl
  words := prefix_rfl

theorem Grows.trans {s u v : Tidy} (first : Grows s u) (second : Grows u v) : Grows s v where
  old := first.old.trans second.old
  scan := second.scan.trans first.scan
  wordScan := second.wordScan.trans first.wordScan
  next k := (first.next k).trans (second.next k)
  words := first.words.trans second.words

theorem pushed_grows (s : Tidy) (k : Kind) (x : Word) : Grows s (s.pushed k x) where
  old := rfl
  scan := rfl
  wordScan := rfl
  next l := by
    rw [Tidy.pushed_next]
    split
    · rename_i same
      subst same
      exact prefix_append _ _
    · exact prefix_rfl
  words := prefix_append _ _

section Copy
variable {h : Heap} {f : Forward} {s : Tidy}

theorem next_le (inv : Inv h f s) (k : Kind) : (s.next.get k).length ≤ (h.table k).length := by
  have := inv.rowsLeft k
  omega

theorem target_lt (ready : Ready h) (inv : Inv h f s) {a : Addr} {j : Nat} (found : f a = some j) : j < 2 ^ 26 := by
  have inside := inv.target a j found
  have rows := ready.reserved.rows a.1
  have := next_le inv a.1
  omega

/-- What one call of `copy` on `c`, which stands for the old word `o`, gives. -/
structure Copied (h : Heap) (f : Forward) (s : Tidy) (o : Word) (result : Word × Tidy)
    (g : Forward) : Prop where
  more : Extends f g
  inv : Inv h g result.2
  grows : Grows s result.2
  img : Img g (!h.era) o result.1

theorem push_spec (ready : Ready h) (inv : Inv h f s) {o : Word} {k : Kind}
    (points : addr? o = some (k, indexOf o)) (held : Held h o) : ∃ g, Copied h f s o (Tidy.push k o s) g := by
  obtain ⟨current, reach⟩ := held _ points
  have now : eraOf o = s.old.era := current.trans inv.era.symm
  cases found : f (k, indexOf o) with
  | none =>
    have p : Pending h f k o := ⟨ready, reach, found⟩
    refine ⟨extend f (k, indexOf o) (s.next.get k).length, ?_⟩
    rw [Tidy.push_fresh now (p.open_row inv)]
    constructor
    · exact extends_extend found _
    · exact p.pushed_inv inv
    · exact pushed_grows s k o
    · simp only [Img, points]
      exact ⟨_, extend_self f _ _, by rw [inv.era]⟩
  | some j =>
    obtain ⟨closed, forward⟩ := inv.marked _ j found
    refine ⟨f, ?_⟩
    rw [Tidy.push_forwarded now closed]
    constructor
    · exact Extends.refl f
    · exact inv
    · exact Grows.refl s
    · simp only [Img, points]
      exact ⟨j, found, forward⟩

theorem copy_spec (ready : Ready h) (inv : Inv h f s) {o c : Word} (held : Held h o)
    (loose : Loose f (!h.era) o c) : ∃ g, Copied h f s o (Tidy.copy c s) g := by
  cases points : addr? o with
  | none =>
    have same : c = o := by
      rcases loose with same | img
      · exact same
      · simpa only [Img, points] using img
    subst same
    have plain : (tagOf c).kind? = none := by simpa [addr?] using points
    refine ⟨f, ?_⟩
    rw [Tidy.copy, plain]
    exact ⟨Extends.refl f, inv, Grows.refl s, by simp only [Img, points]⟩
  | some a =>
    obtain ⟨tag, index⟩ := addr_some points
    rcases loose with same | img
    · subst same
      rw [Tidy.copy, tag, kind?_tag]
      exact push_spec ready inv (by rw [points, index]) held
    · simp only [Img, points] at img
      obtain ⟨j, found, rfl⟩ := img
      have small := target_lt ready inv found
      have flipped : eraOf (pointer a.1 j (!h.era)) ≠ s.old.era := by
        rw [eraOf_pointer a.1 _ small, inv.era]
        cases h.era <;> decide
      refine ⟨f, ?_⟩
      rw [Tidy.copy, tagOf_pointer a.1 _ small, kind?_tag]
      simp only [Tidy.push_relocated flipped]
      refine ⟨Extends.refl f, inv, Grows.refl s, ?_⟩
      simp only [Img, points]
      exact ⟨j, found, rfl⟩

end Copy

section Scan
variable {h : Heap} {f : Forward} {s : Tidy}

variable {a : Addr} {c n : Nat} {k : Kind} {i : Nat}

theorem held_value (ready : Ready h) (reach : h.Reachable a)
    (column : columnKind a.1 c = some .value) : Held h (h.cell a c) := by
  have field : h.cell a c ∈ h.fields a := by
    rw [Heap.fields, mem_append, mem_map]
    exact Or.inl ⟨c, mem_valueColumns.mpr column, rfl⟩
  intro b points
  exact ⟨(ready.wf.values (reachable_live ready.wf reach) field b points).1, reach.step ⟨_, field, points⟩⟩

theorem mem_payload (ready : Ready h) (reach : h.Reachable a)
    (payload : wordPayload a.1 = true) (small : n < h.length a) : h.words.getD (h.offset a + n) 0 ∈ h.payload a := by
  have long := payload_length ready.wf (reachable_live ready.wf reach) payload
  rw [← getD_slice h.words (h.offset a) (h.length a) n 0 small]
  exact mem_of_getD (by rw [← long] at small; exact small)

theorem held_word (ready : Ready h) (reach : h.Reachable a)
    (payload : wordPayload a.1 = true) (small : n < h.length a) : Held h (h.words.getD (h.offset a + n) 0) := by
  have field : h.words.getD (h.offset a + n) 0 ∈ h.fields a := by
    rw [Heap.fields, mem_append, payload, if_pos rfl]
    exact Or.inr (mem_payload ready reach payload small)
  intro b points
  exact ⟨(ready.wf.values (reachable_live ready.wf reach) field b points).1, reach.step ⟨_, field, points⟩⟩

theorem setNext_length (s : Tidy) (k : Kind) (i c : Nat) (y : Word) (l : Kind) :
    ((s.setNext k i c y).next.get l).length = (s.next.get l).length := by
  simp only [Tidy.setNext, Vat.get_set]
  split
  · rename_i same
    subst same
    exact length_set
  · rfl

theorem setNext_cell (s : Tidy) (y : Word)
    (inside : i < (s.next.get k).length) (narrow : c < ((s.next.get k).getD i []).length) (l : Kind) (j d : Nat) :
    cell ((s.setNext k i c y).next.get l) j d = if l = k ∧ j = i ∧ d = c then y else cell (s.next.get l) j d := by
  simp only [Tidy.setNext, Vat.get_set]
  by_cases kind : l = k
  · subst kind
    by_cases row : j = i
    · subst row
      simp only [cell, getD_set, inside, and_self, if_true, true_and]
      by_cases column : d = c
      · subst column
        rw [if_pos ⟨rfl, narrow⟩, if_pos rfl]
      · have : c ≠ d := fun same => column same.symm
        simp [column, this]
    · have : i ≠ j := fun same => row same.symm
      simp [cell_set_ne _ _ d this, row]
  · simp [kind]

theorem setNext_inv (inv : Inv h f s) {y : Word} (kind : a.1 = k) (found : f a = some i)
    (column : columnKind k c = some .value) (img : Img f (!h.era) (h.cell a c) y) : Inv h f (s.setNext k i c y) := by
  subst kind
  have inside := inv.target a i found
  have narrow : c < ((s.next.get a.1).getD i []).length := by
    rw [inv.shape a.1 _ (mem_of_getD inside)]
    exact columnKind_lt column
  have at_cell := setNext_cell s y inside narrow
  have other (l : Kind) (j d : Nat) (r : FieldKind) (plain : columnKind l d = some r)
      (notValue : r ≠ .value) :
      cell ((s.setNext a.1 i c y).next.get l) j d = cell (s.next.get l) j d := by
    rw [at_cell, if_neg]
    intro ⟨sameKind, _, sameColumn⟩
    subst sameKind sameColumn
    rw [column] at plain
    exact notValue (Option.some.inj plain).symm
  have offset (b : Addr) (payload : wordPayload b.1 = true) (j : Nat) :
      cell ((s.setNext a.1 i c y).next.get b.1) j 0 = cell (s.next.get b.1) j 0 :=
    other b.1 j 0 .offset (slice_columns payload).1 (by decide)
  have rewritten (b : Addr) (j d : Nat) (same : f b = some j) (isCell : b.1 = a.1 ∧ j = i ∧ d = c) :
      b = a ∧ d = c := by
    obtain ⟨sameKind, rfl, rfl⟩ := isCell
    exact ⟨inv.injective b a j sameKind same found, rfl⟩
  exact
    { era := inv.era
      words := inv.words
      bytes := inv.bytes
      size := inv.size
      unmoved := inv.unmoved
      marked := inv.marked
      source := inv.source
      target := fun b j same => by
        rw [setNext_length]
        exact inv.target b j same
      injective := inv.injective
      surjective := fun l j small => by
        rw [setNext_length] at small
        exact inv.surjective l j small
      shape := fun l data held => by
        simp only [Tidy.setNext, Vat.get_set] at held
        split at held
        · rename_i same
          subst same
          rcases mem_or_eq_of_mem_set held with before | fresh
          · exact inv.shape a.1 data before
          · rw [fresh, length_set]
            exact inv.shape a.1 _ (mem_of_getD inside)
        · exact inv.shape l data held
      value := fun b j same d isValue => by
        rw [at_cell]
        split
        · rename_i isCell
          obtain ⟨rfl, rfl⟩ := rewritten b j d same isCell
          exact Or.inr img
        · exact inv.value b j same d isValue
      raw := fun b j same d r plain notValue notOffset => by
        rw [other b.1 j d r plain notValue]
        exact inv.raw b j same d r plain notValue notOffset
      inside := fun b j same payload => by
        rw [offset b payload]
        exact inv.inside b j same payload
      slice := fun b j same payload n small => by
        rw [offset b payload]
        exact inv.slice b j same payload n small
      cover := fun q small => by
        obtain ⟨b, j, n, same, payload, inner, eq⟩ := inv.cover q small
        exact ⟨b, j, n, same, payload, inner, by rw [offset b payload]; exact eq⟩
      apart := fun b j n d i m left leftKind leftSmall right rightKind rightSmall eq => by
        rw [offset b leftKind, offset d rightKind] at eq
        exact inv.apart b j n d i m left leftKind leftSmall right rightKind rightSmall eq
      text := fun j n same => by
        rw [other .v08 n 0 .offset rfl (by decide)]
        exact inv.text j n same
      rowsLeft := fun l => by
        rw [setNext_length]
        exact inv.rowsLeft l
      wordsLeft := inv.wordsLeft
      bytesLeft := inv.bytesLeft
      cursor := fun l => by
        rw [setNext_length]
        exact inv.cursor l
      wordCursor := inv.wordCursor
      scanned := fun b j same behind d isValue => by
        rw [at_cell]
        split
        · rename_i isCell
          obtain ⟨rfl, rfl⟩ := rewritten b j d same isCell
          exact img
        · exact inv.scanned b j same behind d isValue
      scannedWords := fun b j same payload n small behind => by
        rw [offset b payload] at behind ⊢
        exact inv.scannedWords b j same payload n small behind }

structure Scanned (h : Heap) (f : Forward) (s u : Tidy) (g : Forward) : Prop where
  more : Extends f g
  inv : Inv h g u
  old : TablesOnly s u
  scan : u.scan = s.scan
  wordScan : u.wordScan = s.wordScan

theorem prefix_cell {rows more : Table} (longer : rows <+: more) (c : Nat)
    (inside : i < rows.length) : cell more i c = cell rows i c := by
  obtain ⟨rest, rfl⟩ := longer
  rw [cell, getD_append rows rest [] i inside, cell]

theorem pullColumns_spec (ready : Ready h) : ∀ (columns : List Nat) {f : Forward} {s : Tidy}, Inv h f s → f a = some i →
      (∀ c ∈ columns, columnKind a.1 c = some .value) → ∃ g, Scanned h f s (Tidy.pullColumns a.1 i columns s) g ∧
        (∀ c ∈ columns, Img g (!h.era) (h.cell a c) (cell ((Tidy.pullColumns a.1 i columns s).next.get a.1) i c)) ∧
        ∀ c, columnKind a.1 c = some .value → Img f (!h.era) (h.cell a c) (cell (s.next.get a.1) i c) →
          Img g (!h.era) (h.cell a c) (cell ((Tidy.pullColumns a.1 i columns s).next.get a.1) i c) := by
  intro columns
  induction columns with
  | nil =>
    intro f s inv _ _
    exact ⟨f, ⟨Extends.refl f, inv, rfl, rfl, rfl⟩, by simp, fun _ _ img => img⟩
  | cons c rest ih =>
    intro f s inv found values
    have column := values c (mem_cons_self ..)
    have reach := inv.source a i found
    have inside := inv.target a i found
    obtain ⟨g, copied⟩ := copy_spec ready inv (held_value ready reach column)
      (inv.value a i found c column)
    have forwarded := copied.more a i found
    have written := setNext_inv copied.inv rfl forwarded column copied.img
    obtain ⟨m, scanned, images, kept⟩ := ih written forwarded
      (fun d held => values d (mem_cons_of_mem c held))
    have now := copied.inv.target a i forwarded
    have narrow : c < (((Tidy.copy (cell (s.next.get a.1) i c) s).2.next.get a.1).getD i []).length := by
      rw [copied.inv.shape a.1 _ (mem_of_getD now)]
      exact columnKind_lt column
    have at_cell := setNext_cell _ (Tidy.copy (cell (s.next.get a.1) i c) s).1 now narrow a.1 i
    refine ⟨m, ⟨copied.more.trans scanned.more, scanned.inv, ?_, ?_, ?_⟩, ?_, ?_⟩
    · exact copied.grows.old.trans scanned.old
    · exact scanned.scan.trans copied.grows.scan
    · exact scanned.wordScan.trans copied.grows.wordScan
    · intro d held
      rcases mem_cons.mp held with same | later
      · subst same
        apply kept d column
        rw [at_cell, if_pos ⟨rfl, rfl, rfl⟩]
        exact copied.img
      · exact images d later
    · intro d isValue img
      apply kept d isValue
      rw [at_cell]
      split
      · rename_i same
        obtain ⟨-, -, rfl⟩ := same
        exact copied.img
      · rw [prefix_cell (copied.grows.next a.1) d inside]
        exact img_mono copied.more img

theorem pullRow_spec (ready : Ready h) (inv : Inv h f s) (more : s.scan k < (s.next.get k).length) :
    ∃ g, Extends f g ∧ Inv h g (Tidy.pullRow k s) ∧ TablesOnly s (Tidy.pullRow k s) ∧
      (Tidy.pullRow k s).wordScan = s.wordScan ∧
      ∀ l, (Tidy.pullRow k s).scan l = if l = k then s.scan k + 1 else s.scan l := by
  obtain ⟨i, found⟩ := inv.surjective k _ more
  obtain ⟨g, scanned, images, -⟩ := pullColumns_spec ready (Tidy.valueColumns k) inv found
    (fun c held => mem_valueColumns.mp held)
  have forwarded := scanned.more _ _ found
  have cursor : ∀ l, (Tidy.pullRow k s).scan l = if l = k then s.scan k + 1 else s.scan l := by
    intro l
    simp only [Tidy.pullRow, scanned.scan]
  refine ⟨g, scanned.more, ?_, scanned.old, scanned.wordScan, cursor⟩
  exact
    { scanned.inv with
      cursor := fun l => by
        rw [cursor]
        have := scanned.inv.cursor l
        rw [scanned.scan] at this
        split
        · rename_i same
          subst same
          exact scanned.inv.target _ _ forwarded
        · exact this
      scanned := fun b j same behind c column => by
        rw [cursor] at behind
        split at behind
        · rename_i kind
          by_cases last : j = s.scan k
          · subst last
            have row := scanned.inv.injective b (k, i) _ kind same forwarded
            subst row
            exact images c (mem_valueColumns.mpr column)
          · apply scanned.inv.scanned b j same _ c column
            rw [scanned.scan, kind]
            omega
        · apply scanned.inv.scanned b j same _ c column
          rw [scanned.scan]
          exact behind }

theorem pullWord_spec (ready : Ready h) (inv : Inv h f s) (more : s.wordScan < s.words.length) :
    ∃ g, Extends f g ∧ Inv h g (Tidy.pullWord s) ∧ TablesOnly s (Tidy.pullWord s) ∧
      (Tidy.pullWord s).wordScan = s.wordScan + 1 ∧ (Tidy.pullWord s).scan = s.scan := by
  obtain ⟨a, j, n, found, payload, small, place⟩ := inv.cover _ more
  have loose := inv.slice a j found payload n small
  rw [← place] at loose
  obtain ⟨g, copied⟩ := copy_spec ready inv (held_word ready (inv.source a j found) payload small)
    loose
  have forwarded := copied.more a j found
  have kept := prefix_cell (copied.grows.next a.1) 0 (inv.target a j found)
  have longer := copied.grows.words.length_le
  have pending := copied.grows.wordScan
  have cursor := copied.inv.wordCursor
  have wordAt (q : Nat) : (Tidy.pullWord s).words.getD q 0 =
      if s.wordScan = q ∧ q < (Tidy.copy (s.words.getD s.wordScan 0) s).2.words.length
      then (Tidy.copy (s.words.getD s.wordScan 0) s).1
      else (Tidy.copy (s.words.getD s.wordScan 0) s).2.words.getD q 0 := by
    simp only [Tidy.pullWord, getD_set, pending]
  have size : (Tidy.pullWord s).words.length =
      (Tidy.copy (s.words.getD s.wordScan 0) s).2.words.length := length_set
  -- the word under the cursor belongs to one row only
  have here (b : Addr) (i m : Nat) (same : g b = some i) (kind : wordPayload b.1 = true)
      (inner : m < h.length b)
      (eq : s.wordScan = (cell ((Tidy.copy (s.words.getD s.wordScan 0) s).2.next.get b.1) i 0).toNat + m) :
      a = b ∧ n = m := by
    apply copied.inv.apart a j n b i m forwarded payload small same kind inner
    rw [kept]
    omega
  refine ⟨g, copied.more, ?_, copied.grows.old, ?_, copied.grows.scan⟩
  · exact
      { copied.inv with
        inside := fun b i same kind => by
          rw [size]
          exact copied.inv.inside b i same kind
        slice := fun b i same kind m inner => by
          rw [wordAt]
          split
          · rename_i eq
            obtain ⟨rfl, rfl⟩ := here b i m same kind inner eq.1
            exact Or.inr copied.img
          · exact copied.inv.slice b i same kind m inner
        cover := fun q inner => by
          rw [size] at inner
          exact copied.inv.cover q inner
        wordsLeft := by
          rw [size]
          exact copied.inv.wordsLeft
        wordCursor := by
          rw [size]
          simp only [Tidy.pullWord, pending]
          omega
        scannedWords := fun b i same kind m inner behind => by
          rw [wordAt]
          split
          · rename_i eq
            obtain ⟨rfl, rfl⟩ := here b i m same kind inner eq.1
            exact copied.img
          · rename_i away
            have inside := copied.inv.inside b i same kind
            apply copied.inv.scannedWords b i same kind m inner
            simp only [Tidy.pullWord, pending] at behind away ⊢
            omega }
  · simp only [Tidy.pullWord, pending]

end Scan

def pooledWords (h : Heap) : Nat := (lengths h .v32).sum + (lengths h .record).sum

/-- What the scans can still have before them: it bounds every loop of `run`. -/
def remaining (h : Heap) (s : Tidy) : Nat :=
  (Kind.all.map fun k => (h.table k).length - s.scan k).sum + (pooledWords h - s.wordScan)

structure Done (s : Tidy) : Prop where
  rows : ∀ k, ¬ s.scan k < (s.next.get k).length
  words : ¬ s.wordScan < s.words.length

structure Progress (h : Heap) (f : Forward) (s u : Tidy) (g : Forward) : Prop where
  more : Extends f g
  inv : Inv h g u
  old : TablesOnly s u
  less : remaining h u ≤ remaining h s

section Loops
variable {h : Heap} {f g m : Forward} {s u v : Tidy}

theorem Progress.refl (inv : Inv h f s) : Progress h f s s f :=
  ⟨Extends.refl f, inv, rfl, le_rfl⟩

theorem Progress.trans (first : Progress h f s u g) (second : Progress h g u v m) : Progress h f s v m :=
  ⟨first.more.trans second.more, second.inv, first.old.trans second.old, second.less.trans first.less⟩

variable {k : Kind} {fuel : Nat}

theorem remaining_row (room : s.scan k < (h.table k).length)
    (scan : ∀ l, u.scan l = if l = k then s.scan k + 1 else s.scan l)
    (words : u.wordScan = s.wordScan) : remaining h u < remaining h s := by
  have rows : (Kind.all.map fun l => (h.table l).length - u.scan l).sum <
      (Kind.all.map fun l => (h.table l).length - s.scan l).sum := by
    apply sum_lt_sum
    · intro l _
      rw [scan]
      split
      · rename_i same
        rw [same]
        omega
      · exact le_rfl
    · refine ⟨k, Kind.mem_all k, ?_⟩
      rw [scan, if_pos rfl]
      omega
  simp only [remaining, words]
  omega

theorem remaining_word (room : s.wordScan < pooledWords h) (scan : u.scan = s.scan)
    (words : u.wordScan = s.wordScan + 1) : remaining h u < remaining h s := by
  simp only [remaining, scan, words]
  omega

theorem rows_remaining (inv : Inv h f s) (more : s.scan k < (s.next.get k).length) :
    s.scan k < (h.table k).length := Nat.lt_of_lt_of_le more (next_le inv k)

theorem words_remaining (inv : Inv h f s) (more : s.wordScan < s.words.length) : s.wordScan < pooledWords h := by
  have left := inv.wordsLeft
  unfold pooledWords
  omega

section
variable (ready : Ready h)
include ready

theorem pullRow_progress (inv : Inv h f s) (more : s.scan k < (s.next.get k).length) :
    ∃ g, Progress h f s (Tidy.pullRow k s) g ∧ remaining h (Tidy.pullRow k s) < remaining h s := by
  obtain ⟨g, ext, kept, old, words, scan⟩ := pullRow_spec ready inv more
  have less := remaining_row (rows_remaining inv more) scan words
  exact ⟨g, ⟨ext, kept, old, less.le⟩, less⟩

theorem pullWord_progress (inv : Inv h f s) (more : s.wordScan < s.words.length) :
    ∃ g, Progress h f s (Tidy.pullWord s) g ∧ remaining h (Tidy.pullWord s) < remaining h s := by
  obtain ⟨g, ext, kept, old, words, scan⟩ := pullWord_spec ready inv more
  have less := remaining_word (words_remaining inv more) scan words
  exact ⟨g, ⟨ext, kept, old, less.le⟩, less⟩

theorem pullLoop_progress (k : Kind) (fuel : Nat) (inv : Inv h f s) :
    ∃ g, Progress h f s (Tidy.pullLoop k fuel s) g := by
  induction fuel generalizing f s with
  | zero => exact ⟨f, Progress.refl inv⟩
  | succ fuel ih =>
    rw [Tidy.pullLoop]
    split
    · rename_i more
      obtain ⟨g, first, -⟩ := pullRow_progress ready inv more
      obtain ⟨m, second⟩ := ih first.inv
      exact ⟨m, first.trans second⟩
    · exact ⟨f, Progress.refl inv⟩

theorem pull_progress (k : Kind) (inv : Inv h f s) (fueled : remaining h s ≤ fuel) : ∃ g, Progress h f s
    (Tidy.pull fuel k s).2 g ∧ ((Tidy.pull fuel k s).1 = true → remaining h (Tidy.pull fuel k s).2 < remaining h s) ∧
    ((Tidy.pull fuel k s).1 = false → (Tidy.pull fuel k s).2 = s ∧ ¬ s.scan k < (s.next.get k).length) := by
  simp only [Tidy.pull, decide_eq_true_eq, decide_eq_false_iff_not]
  by_cases more : s.scan k < (s.next.get k).length
  · obtain ⟨g, first, less⟩ := pullRow_progress ready inv more
    cases fuel with
    | zero => omega
    | succ fuel =>
      obtain ⟨m, second⟩ := pullLoop_progress ready k fuel first.inv
      rw [Tidy.pullLoop, if_pos more]
      exact ⟨m, first.trans second, fun _ => Nat.lt_of_le_of_lt second.less less, fun idle => absurd more idle⟩
  · have still : Tidy.pullLoop k fuel s = s := by
      cases fuel with
      | zero => rfl
      | succ fuel => rw [Tidy.pullLoop, if_neg more]
    rw [still]
    exact ⟨f, Progress.refl inv, fun busy => absurd busy more, fun _ => ⟨rfl, more⟩⟩

theorem pullAll_progress (kinds : List Kind) (changed : Bool)
    (inv : Inv h f s) (fueled : remaining h s ≤ fuel) : ∃ g, Progress h f s (Tidy.pullAll fuel kinds changed s).2 g ∧
      ((Tidy.pullAll fuel kinds changed s).1 = true →
        changed = true ∨ remaining h (Tidy.pullAll fuel kinds changed s).2 < remaining h s) ∧
      ((Tidy.pullAll fuel kinds changed s).1 = false → changed = false ∧ (Tidy.pullAll fuel kinds changed s).2 = s ∧
          ∀ k ∈ kinds, ¬ s.scan k < (s.next.get k).length) := by
  induction kinds generalizing f s changed with
  | nil => exact ⟨f, Progress.refl inv, fun h => Or.inl h, fun h => ⟨h, rfl, by simp⟩⟩
  | cons k rest ih =>
    obtain ⟨g, first, busy, idle⟩ := pull_progress ready k inv fueled
    obtain ⟨m, second, more, none⟩ := ih ((Tidy.pull fuel k s).1 || changed) first.inv
      (first.less.trans fueled)
    refine ⟨m, first.trans second, ?_, ?_⟩
    · intro flag
      rcases more flag with before | later
      · rcases Bool.or_eq_true _ _ ▸ before with pulled | was
        · exact Or.inr (Nat.lt_of_le_of_lt second.less (busy pulled))
        · exact Or.inl was
      · exact Or.inr (Nat.lt_of_lt_of_le later first.less)
    · intro flag
      obtain ⟨before, same, still⟩ := none flag
      obtain ⟨quiet, was⟩ := Bool.or_eq_false_iff.mp before
      obtain ⟨stay, empty⟩ := idle quiet
      rw [stay] at still
      refine ⟨was, same.trans stay, ?_⟩
      intro l held
      rcases mem_cons.mp held with rfl | later
      · exact empty
      · exact still l later

theorem pullWords_progress (changed : Bool) (inv : Inv h f s) (fueled : remaining h s ≤ fuel) :
    ∃ g, Progress h f s (Tidy.pullWords fuel changed s).2 g ∧ ((Tidy.pullWords fuel changed s).1 = true →
        changed = true ∨ remaining h (Tidy.pullWords fuel changed s).2 < remaining h s) ∧
      ((Tidy.pullWords fuel changed s).1 = false → changed = false ∧ (Tidy.pullWords fuel changed s).2 = s ∧
          ¬ s.wordScan < s.words.length) := by
  induction fuel generalizing f s changed with
  | zero =>
    refine ⟨f, Progress.refl inv, fun flag => Or.inl flag, fun flag => ⟨flag, rfl, ?_⟩⟩
    intro more
    have := words_remaining inv more
    simp only [remaining] at fueled
    omega
  | succ fuel ih =>
    rw [Tidy.pullWords]
    split
    · rename_i more
      obtain ⟨g, first, less⟩ := pullWord_progress ready inv more
      obtain ⟨m, second, -, idle⟩ := ih true first.inv (by omega)
      refine ⟨m, first.trans second, ?_, ?_⟩
      · intro _
        exact Or.inr (Nat.lt_of_le_of_lt second.less less)
      · intro flag
        exact absurd (idle flag).1 (by decide)
    · rename_i empty
      exact ⟨f, Progress.refl inv, fun flag => Or.inl flag, fun flag => ⟨flag, rfl, empty⟩⟩

theorem round_progress (inv : Inv h f s) (fueled : remaining h s ≤ fuel) : ∃ g, Progress h f s (Tidy.round fuel s).2 g ∧
      ((Tidy.round fuel s).1 = true → remaining h (Tidy.round fuel s).2 < remaining h s) ∧
      ((Tidy.round fuel s).1 = false → Done (Tidy.round fuel s).2) := by
  obtain ⟨g, first, busy, idle⟩ := pullAll_progress ready Kind.all false inv fueled
  obtain ⟨m, second, more, none⟩ := pullWords_progress ready
    (Tidy.pullAll fuel Kind.all false s).1 first.inv (first.less.trans fueled)
  refine ⟨m, first.trans second, ?_, ?_⟩
  · intro flag
    rcases more flag with before | later
    · rcases busy before with never | less
      · cases never
      · exact Nat.lt_of_le_of_lt second.less less
    · exact Nat.lt_of_lt_of_le later first.less
  · intro flag
    obtain ⟨quiet, same, words⟩ := none flag
    obtain ⟨-, stay, rows⟩ := idle quiet
    simp only [Tidy.round, same]
    constructor
    · intro k
      rw [stay]
      exact rows k (Kind.mem_all k)
    · exact words

theorem rounds_done (n : Nat) (inv : Inv h f s) (fueled : remaining h s ≤ fuel) (enough : remaining h s < n) :
    ∃ g, Progress h f s (Tidy.rounds fuel n s) g ∧ Done (Tidy.rounds fuel n s) := by
  induction n generalizing f s with
  | zero => omega
  | succ n ih =>
    obtain ⟨g, first, busy, idle⟩ := round_progress ready inv fueled
    simp only [Tidy.rounds]
    split
    · rename_i changed
      have less := busy changed
      obtain ⟨m, second, done⟩ := ih first.inv (by omega) (by omega)
      exact ⟨m, first.trans second, done⟩
    · rename_i still
      exact ⟨g, first, idle (by simpa using still)⟩

end

end Loops

end Nxt.Wisp

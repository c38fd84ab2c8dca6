import Nxt.Land.Mask

/- What the words of a mask say: a bit is set where a member is below it, and every operation
   keeps that for the set it leaves. -/
namespace Nxt.Land
open List
namespace Layout

/-! ### The levels -/

def count (capacity level : Nat) : Nat := (levels capacity).getD level 0

theorem counts_bound (fuel width : Nat) : ∀ k < (counts fuel width).length, ∀ i < width,
    i / 64 ^ k < (counts fuel width).getD k 0 := by
  induction fuel generalizing width with
  | zero => exact fun k inside => absurd inside (Nat.not_lt_zero k)
  | succ fuel ih =>
    intro k inside i below
    have some_width : width ≠ 0 := by omega
    rw [counts, if_neg some_width] at inside ⊢
    cases k with
    | zero => simpa using below
    | succ k =>
      split at inside
      · rename_i more
        rw [length_cons, Nat.add_lt_add_iff_right] at inside
        have upper := ih ((width + 63) / 64) k inside (i / 64) (by omega)
        rw [if_pos more, getD_cons_succ, Nat.pow_succ', ← Nat.div_div_eq_div_mul]
        exact upper
      · simp at inside

theorem counts_pos (fuel width : Nat) : ∀ c ∈ counts fuel width, 0 < c := by
  induction fuel generalizing width with
  | zero => exact nofun
  | succ fuel ih =>
    intro c held
    rw [counts] at held
    rcases mem_cons.mp held with here | later
    · rw [here]
      split <;> omega
    · by_cases more : (if width = 0 then 1 else width) > 1
      · rw [if_pos more] at later
        exact ih _ c later
      · rw [if_neg more] at later
        cases later

theorem counts_root (fuel width : Nat) (small : width ≤ 64 ^ fuel) : (counts (fuel + 1) width).getLast? = some 1 := by
  induction fuel generalizing width with
  | zero =>
    have one : (if width = 0 then 1 else width) = 1 := by
      split <;> omega
    rw [counts, one]
    rfl
  | succ fuel ih =>
    rw [counts]
    by_cases more : (if width = 0 then 1 else width) > 1
    · rw [if_pos more, getLast?_cons, ih]
      · rfl
      · rw [Nat.pow_succ] at small
        omega
    · rw [if_neg more]
      have one : (if width = 0 then 1 else width) = 1 := by
        split at more <;> split <;> omega
      rw [one]
      rfl

theorem offsets_get (total : Nat) (xs : List Nat) : ∀ k < xs.length,
    (offsets total xs).getD k 0 = total + (xs.take k).sum := by
  induction xs generalizing total with
  | nil => exact fun k inside => absurd inside (Nat.not_lt_zero k)
  | cons x xs ih =>
    intro k inside
    cases k with
    | zero => rfl
    | succ k =>
      rw [offsets, getD_cons_succ, ih _ k (by simpa using inside), take_succ_cons,
        sum_cons, Nat.add_assoc]

variable {capacity : Nat}

theorem depth_pos (capacity : Nat) : 0 < (of capacity).depth := by
  change 0 < (levels capacity).length
  rw [levels, length_reverse, maxDepth, counts]
  exact Nat.succ_pos _

variable {level a b w v index : Nat}

theorem place_eq (inside : level < (of capacity).depth) (w : Nat) :
    (of capacity).place level w = ((levels capacity).take level).sum + w := by
  rw [place]
  change (offsets 0 (levels capacity)).getD level 0 + w = _
  rw [offsets_get 0 _ level inside, Nat.zero_add]

theorem take_sum_le {xs : List Nat} (before : a < b) (inside : a < xs.length) :
    (xs.take a).sum + xs.getD a 0 ≤ (xs.take b).sum := by
  have step : (xs.take (a + 1)).sum = (xs.take a).sum + xs.getD a 0 := by
    rw [take_add_one, sum_append, getD_eq_getElem?_getD,
      getElem?_eq_getElem inside]
    simp
  rw [← step]
  have cut : xs.take (a + 1) = (xs.take b).take (a + 1) := by
    rw [take_take, Nat.min_eq_left (by omega)]
  rw [cut]
  exact (take_sublist _ _).sum_le_sum fun _ _ => Nat.zero_le _

theorem place_injective (first : a < (of capacity).depth)
    (second : b < (of capacity).depth) (left : w < count capacity a) (right : v < count capacity b)
    (same : (of capacity).place a w = (of capacity).place b v) : a = b ∧ w = v := by
  rw [place_eq first, place_eq second] at same
  rcases Nat.lt_trichotomy a b with before | rfl | after
  · have bound := take_sum_le before first
    unfold count at left
    omega
  · exact ⟨rfl, by omega⟩
  · have bound := take_sum_le after second
    unfold count at right
    omega

theorem place_inside (inside : level < (of capacity).depth)
    (small : w < count capacity level) : (of capacity).place level w < (of capacity).words := by
  rw [place_eq inside]
  have bound := take_sum_le (b := (levels capacity).length) inside inside
  rw [take_length] at bound
  change _ < (levels capacity).sum
  unfold count at small
  omega

theorem count_bound {i : Nat} (inside : level < (of capacity).depth) (below : i < capacity) :
    i / 64 ^ ((of capacity).depth - level) < count capacity level := by
  have length : (levels capacity).length = (counts maxDepth ((capacity + 63) / 64)).length :=
    length_reverse
  have inside' : level < (counts maxDepth ((capacity + 63) / 64)).length := by
    rw [← length]
    exact inside
  have depth : (of capacity).depth = (counts maxDepth ((capacity + 63) / 64)).length := length
  have leaf := counts_bound maxDepth ((capacity + 63) / 64)
    ((of capacity).depth - 1 - level) (by omega) (i / 64) (by omega)
  have up : (of capacity).depth - level = (of capacity).depth - 1 - level + 1 := by omega
  rw [up, Nat.pow_succ', ← Nat.div_div_eq_div_mul, count, levels, getD_eq_getElem?_getD,
    getElem?_reverse inside', ← depth, ← getD_eq_getElem?_getD]
  exact leaf

theorem count_pos (inside : level < (of capacity).depth) : 0 < count capacity level := by
  apply counts_pos maxDepth ((capacity + 63) / 64)
  rw [← mem_reverse, count, getD_eq_getElem?_getD, getElem?_eq_getElem inside]
  exact getElem_mem _

theorem count_root (allowed : capacity ≤ maxCapacity) : count capacity 0 = 1 := by
  have bound : maxCapacity = 64 ^ 6 := by decide
  have root := counts_root 5 ((capacity + 63) / 64) (by omega)
  rw [count, levels, getD_eq_getElem?_getD, ← head?_eq_getElem?, head?_reverse]
  exact congrArg (fun o : Option Nat => o.getD 0) root

/-! ### What the words say -/

def LevelReflects (capacity : Nat) (words : List Word) (members : Nat → Prop) (level : Nat) : Prop :=
  ∀ n, n / 64 < count capacity level →
    ((words.getD ((of capacity).place level (n / 64)) 0).getMsbD (n % 64) = true ↔
      ∃ i, members i ∧ i / 64 ^ ((of capacity).depth - 1 - level) = n)

structure Reflects (capacity : Nat) (words : List Word) (members : Nat → Prop) : Prop where
  length : words.length = (of capacity).words
  within : ∀ i, members i → i < capacity
  bits : ∀ level < (of capacity).depth, LevelReflects capacity words members level

variable {words : List Word} {members : Nat → Prop}

theorem up (i : Nat) (inside : level < (of capacity).depth) :
    i / 64 ^ ((of capacity).depth - 1 - level) / 64 = i / 64 ^ ((of capacity).depth - level) := by
  have one_more : (of capacity).depth - level = (of capacity).depth - 1 - level + 1 := by omega
  rw [one_more, Nat.pow_succ, Nat.div_div_eq_div_mul]

theorem same_above {i j above : Nat} (inside : level < (of capacity).depth) (before : above < level)
    (same : i / 64 ^ ((of capacity).depth - level) = j / 64 ^ ((of capacity).depth - level)) :
    i / 64 ^ ((of capacity).depth - 1 - above) = j / 64 ^ ((of capacity).depth - 1 - above) := by
  have split : (of capacity).depth - 1 - above =
      (of capacity).depth - level + (level - 1 - above) := by omega
  rw [split, Nat.pow_add, ← Nat.div_div_eq_div_mul, ← Nat.div_div_eq_div_mul, same]

theorem word_members (said : LevelReflects capacity words members level)
    (inside : level < (of capacity).depth) (small : w < count capacity level) :
    words.getD ((of capacity).place level w) 0 ≠ 0 ↔ ∃ i, members i ∧ i / 64 ^ ((of capacity).depth - level) = w := by
  constructor
  · intro some_bit
    obtain ⟨j, bound, set⟩ : ∃ j < 64,
        (words.getD ((of capacity).place level w) 0).getMsbD j = true := by
      obtain ⟨first, set, -⟩ := countlZero_spec some_bit
      exact ⟨_, first, set⟩
    have here := said (64 * w + j)
    rw [show (64 * w + j) / 64 = w by omega, show (64 * w + j) % 64 = j by omega] at here
    obtain ⟨i, held, under⟩ := (here small).mp set
    refine ⟨i, held, ?_⟩
    rw [← up i inside, under]
    omega
  · rintro ⟨i, held, under⟩
    rw [← up i inside] at under
    have set := (said (i / 64 ^ ((of capacity).depth - 1 - level)) (under ▸ small)).mpr ⟨i, held, rfl⟩
    rw [under] at set
    intro zero
    rw [word_zero.mp zero _ (Nat.mod_lt _ (by decide))] at set
    cases set

theorem read_set (length : words.length = (of capacity).words)
    (first : a < (of capacity).depth) (second : b < (of capacity).depth)
    (left : w < count capacity a) (right : v < count capacity b) (word : Word) :
    (words.set ((of capacity).place a w) word).getD ((of capacity).place b v) 0 =
      if a = b ∧ w = v then word else words.getD ((of capacity).place b v) 0 := by
  rw [getD_eq_getElem?_getD, getElem?_set]
  by_cases same : a = b ∧ w = v
  · obtain ⟨rfl, rfl⟩ := same
    rw [if_pos rfl, if_pos (length ▸ place_inside first left), if_pos ⟨rfl, rfl⟩]
    rfl
  · rw [if_neg, if_neg same, getD_eq_getElem?_getD]
    exact fun place => same (place_injective first second left right place)

theorem LevelReflects.elsewhere (said : LevelReflects capacity words members b)
    (length : words.length = (of capacity).words) (first : a < (of capacity).depth)
    (second : b < (of capacity).depth) (left : w < count capacity a) (apart : a ≠ b) (word : Word) :
    LevelReflects capacity (words.set ((of capacity).place a w) word) members b := by
  intro n small
  rw [read_set length first second left small, if_neg fun same => apart same.1]
  exact said n small

theorem LevelReflects.congr {others : Nat → Prop} (said : LevelReflects capacity words members level)
    (same : ∀ n, (∃ i, members i ∧ i / 64 ^ ((of capacity).depth - 1 - level) = n) ↔
      ∃ i, others i ∧ i / 64 ^ ((of capacity).depth - 1 - level) = n) : LevelReflects capacity words others level :=
  fun n small => (said n small).trans (same n)

/-! ### Taking an index out -/

theorem eraseFrom_reflects (below : index < capacity) (within : ∀ i, members i → i < capacity) (level : Nat) : ∀ words :
    List Word, level ≤ (of capacity).depth → words.length = (of capacity).words →
    (∀ k < (of capacity).depth, level ≤ k → LevelReflects capacity words (fun i => members i ∧ i ≠ index) k) →
    (∀ k < level, LevelReflects capacity words members k) →
    (∀ i, members i ∧ i ≠ index → i / 64 ^ ((of capacity).depth - level) ≠ index / 64 ^ ((of capacity).depth - level)) →
    Reflects capacity ((of capacity).eraseFrom level (index / 64 ^ ((of capacity).depth - level)) words)
    (fun i => members i ∧ i ≠ index) := by
  have within' : ∀ i, members i ∧ i ≠ index → i < capacity := fun i held => within i held.1
  induction level with
  | zero => exact fun words _ length low _ _ =>
      ⟨length, within', fun k inside => low k inside (Nat.zero_le k)⟩
  | succ level ih =>
    intro words enough length low high alone
    have inside : level < (of capacity).depth := by omega
    have span : (of capacity).depth - (level + 1) = (of capacity).depth - 1 - level := by omega
    rw [span] at alone ⊢
    rw [eraseFrom]
    have parent := up index inside
    set node := index / 64 ^ ((of capacity).depth - 1 - level) with node_eq
    have small : node / 64 < count capacity level := by
      rw [parent]
      exact count_bound inside below
    set word := words.getD ((of capacity).place level (node / 64)) 0 &&& ~~~ bit (node % 64)
      with word_eq
    set words' := words.set ((of capacity).place level (node / 64)) word with words_eq
    have length' : words'.length = (of capacity).words := by rw [words_eq, length_set, length]
    have here : LevelReflects capacity words' (fun i => members i ∧ i ≠ index) level := by
      intro n bound
      rw [words_eq, read_set length inside inside small bound]
      have old := high level (Nat.lt_succ_self level) n bound
      have kept : (∃ i, (members i ∧ i ≠ index) ∧ i / 64 ^ ((of capacity).depth - 1 - level) = n) ↔
          (∃ i, members i ∧ i / 64 ^ ((of capacity).depth - 1 - level) = n) ∧ n ≠ node := by
        constructor
        · rintro ⟨i, held, rfl⟩
          exact ⟨⟨i, held.1, rfl⟩, alone i held⟩
        · rintro ⟨⟨i, held, rfl⟩, other⟩
          refine ⟨i, ⟨held, ?_⟩, rfl⟩
          rintro rfl
          exact other node_eq.symm
      rw [kept]
      by_cases same : node / 64 = n / 64
      · rw [if_pos ⟨rfl, same⟩, word_eq, clear_get (Nat.mod_lt _ (by decide))
          (Nat.mod_lt _ (by decide)), Bool.and_eq_true, same, old, decide_eq_true_iff]
        have apart : n % 64 ≠ node % 64 ↔ n ≠ node := by omega
        rw [apart]
      · rw [if_neg fun both => same both.2, old]
        have apart : n ≠ node := fun eq => same (by rw [eq])
        exact ⟨fun held => ⟨held, apart⟩, And.left⟩
    have low' : ∀ k < (of capacity).depth, level ≤ k →
        LevelReflects capacity words' (fun i => members i ∧ i ≠ index) k := by
      intro k bound above
      rcases Nat.eq_or_lt_of_le above with rfl | above
      · exact here
      · exact (low k bound above).elsewhere length inside bound small (by omega) word
    have high' : ∀ k < level, LevelReflects capacity words' members k := fun k above =>
      (high k (by omega)).elsewhere length inside (by omega) small (by omega) word
    have read : words'.getD ((of capacity).place level (node / 64)) 0 = word := by
      rw [words_eq, read_set length inside inside small small, if_pos ⟨rfl, rfl⟩]
    have under := word_members here inside small
    rw [read, parent] at under
    by_cases left : word ≠ 0
    · -- Another member is under the word, so nothing changes above.
      rw [if_pos left]
      obtain ⟨i, held, same⟩ := under.mp left
      refine ⟨length', within', fun k bound => ?_⟩
      by_cases above : k < level
      · refine (high' k above).congr fun n => ⟨?_, fun ⟨j, kept, eq⟩ => ⟨j, kept.1, eq⟩⟩
        rintro ⟨j, kept, rfl⟩
        by_cases it : j = index
        · subst it
          exact ⟨i, held, same_above inside above same⟩
        · exact ⟨j, ⟨kept, it⟩, rfl⟩
      · exact low' k bound (by omega)
    · rw [if_neg left, parent]
      exact ih words' (by omega) length' low' high' fun i held same => left (under.mpr ⟨i, held, same⟩)

theorem erase_reflects (said : Reflects capacity words members) (held : members index) :
    Reflects capacity ((of capacity).erase words index) (fun i => members i ∧ i ≠ index) := by
  have run := eraseFrom_reflects (said.within index held) said.within (of capacity).depth words
    (Nat.le_refl _) said.length (fun k inside above => absurd above (by omega)) said.bits
    (fun i apart => by rw [Nat.sub_self, Nat.pow_zero, Nat.div_one, Nat.div_one]; exact apart.2)
  rw [Nat.sub_self, Nat.pow_zero, Nat.div_one] at run
  exact run

/-! ### Putting an index in -/

theorem insertFrom_reflects (below : index < capacity)
    (within : ∀ i, members i → i < capacity) (level : Nat) : ∀ words : List Word,
    level ≤ (of capacity).depth → words.length = (of capacity).words → (∀ k < (of capacity).depth, level ≤ k →
      LevelReflects capacity words (fun i => members i ∨ i = index) k) →
    (∀ k < level, LevelReflects capacity words members k) → Reflects capacity
      ((of capacity).insertFrom level (index / 64 ^ ((of capacity).depth - level)) words)
      (fun i => members i ∨ i = index) := by
  have within' : ∀ i, members i ∨ i = index → i < capacity := by
    rintro i (held | rfl)
    · exact within i held
    · exact below
  induction level with
  | zero => exact fun words _ length low _ =>
      ⟨length, within', fun k inside => low k inside (Nat.zero_le k)⟩
  | succ level ih =>
    intro words enough length low high
    have inside : level < (of capacity).depth := by omega
    have span : (of capacity).depth - (level + 1) = (of capacity).depth - 1 - level := by omega
    rw [span, insertFrom]
    have parent := up index inside
    set node := index / 64 ^ ((of capacity).depth - 1 - level) with node_eq
    have small : node / 64 < count capacity level := by
      rw [parent]
      exact count_bound inside below
    set word := words.getD ((of capacity).place level (node / 64)) 0 with word_eq
    set words' := words.set ((of capacity).place level (node / 64)) (word ||| bit (node % 64))
      with words_eq
    have length' : words'.length = (of capacity).words := by rw [words_eq, length_set, length]
    have old := high level (Nat.lt_succ_self level)
    have here : LevelReflects capacity words' (fun i => members i ∨ i = index) level := by
      intro n bound
      rw [words_eq, read_set length inside inside small bound]
      have now : (∃ i, (members i ∨ i = index) ∧ i / 64 ^ ((of capacity).depth - 1 - level) = n) ↔
          (∃ i, members i ∧ i / 64 ^ ((of capacity).depth - 1 - level) = n) ∨ n = node := by
        constructor
        · rintro ⟨i, held | rfl, rfl⟩
          · exact Or.inl ⟨i, held, rfl⟩
          · exact Or.inr node_eq.symm
        · rintro (⟨i, held, eq⟩ | rfl)
          · exact ⟨i, Or.inl held, eq⟩
          · exact ⟨index, Or.inr rfl, node_eq.symm⟩
      rw [now]
      by_cases same : node / 64 = n / 64
      · rw [if_pos ⟨rfl, same⟩, word_eq, raise_get (Nat.mod_lt _ (by decide))
          (Nat.mod_lt _ (by decide)), Bool.or_eq_true, same, old n bound, decide_eq_true_iff]
        have equal : n % 64 = node % 64 ↔ n = node := by omega
        rw [equal]
      · rw [if_neg fun both => same both.2, old n bound]
        have apart : n ≠ node := fun eq => same (by rw [eq])
        exact ⟨Or.inl, fun held => held.resolve_right apart⟩
    have low' : ∀ k < (of capacity).depth, level ≤ k →
        LevelReflects capacity words' (fun i => members i ∨ i = index) k := by
      intro k bound above
      rcases Nat.eq_or_lt_of_le above with rfl | above
      · exact here
      · exact (low k bound above).elsewhere length inside bound small (by omega) _
    have high' : ∀ k < level, LevelReflects capacity words' members k := fun k above =>
      (high k (by omega)).elsewhere length inside (by omega) small (by omega) _
    have under := word_members old inside small
    rw [← word_eq, parent] at under
    by_cases before : word ≠ 0
    · -- A member was under the word already, so nothing changes above.
      rw [if_pos before]
      obtain ⟨i, held, same⟩ := under.mp before
      refine ⟨length', within', fun k bound => ?_⟩
      by_cases above : k < level
      · refine (high' k above).congr fun n => ⟨fun ⟨j, kept, eq⟩ => ⟨j, Or.inl kept, eq⟩, ?_⟩
        rintro ⟨j, kept | rfl, rfl⟩
        · exact ⟨j, kept, rfl⟩
        · exact ⟨i, held, same_above inside above same⟩
      · exact low' k bound (by omega)
    · rw [if_neg before, parent]
      exact ih words' (by omega) length' low' high'

theorem insert_reflects (said : Reflects capacity words members) (below : index < capacity) :
    Reflects capacity ((of capacity).insert words index) (fun i => members i ∨ i = index) := by
  have run := insertFrom_reflects below said.within (of capacity).depth words (Nat.le_refl _)
    said.length (fun k inside above => absurd above (by omega)) said.bits
  rw [Nat.sub_self, Nat.pow_zero, Nat.div_one] at run
  exact run

/-! ### Filling a tree -/

theorem filled_get (length : words.length = (of capacity).words)
    (inside : level < (of capacity).depth) (second : b < (of capacity).depth)
    (right : v < count capacity b) (value : Nat → Word) (n : Nat) (few : n ≤ count capacity level) :
    (((range n).foldl (fun words w => words.set ((of capacity).place level w) (value w))
      words).getD ((of capacity).place b v) 0 =
        if b = level ∧ v < n then value v else words.getD ((of capacity).place b v) 0) ∧
      ((range n).foldl (fun words w => words.set ((of capacity).place level w) (value w))
        words).length = (of capacity).words := by
  induction n with
  | zero => exact ⟨by simp, length⟩
  | succ n ih =>
    obtain ⟨read, length'⟩ := ih (by omega)
    rw [range_succ, foldl_append, foldl_cons, foldl_nil]
    refine ⟨?_, by rw [length_set, length']⟩
    rw [read_set length' inside second (by omega) right, read]
    by_cases last : level = b ∧ n = v
    · obtain ⟨rfl, rfl⟩ := last
      rw [if_pos ⟨rfl, rfl⟩, if_pos ⟨rfl, Nat.lt_succ_self n⟩]
    · rw [if_neg last]
      have same : (b = level ∧ v < n) ↔ (b = level ∧ v < n + 1) := by omega
      rw [if_congr same rfl rfl]

theorem filled_parents {filled : Nat} (inside : level < (of capacity).depth)
    (exact : ∀ n, n < filled ↔ n * 64 ^ ((of capacity).depth - (level + 1)) < capacity) (n : Nat) :
    n < (filled + 63) / 64 ↔ n * 64 ^ ((of capacity).depth - level) < capacity := by
  have one_more : (of capacity).depth - level = (of capacity).depth - (level + 1) + 1 := by omega
  rw [one_more, Nat.pow_succ', ← Nat.mul_assoc, ← exact]
  omega

theorem filled_few {filled : Nat} (inside : level < (of capacity).depth)
    (parents : ∀ n, n < filled ↔ n * 64 ^ ((of capacity).depth - level) < capacity) :
    filled ≤ count capacity level := by
  by_contra many
  have last := (parents (count capacity level)).mp (by omega)
  have bound := count_bound inside last
  rw [Nat.mul_div_cancel _ (Nat.pow_pos (by decide))] at bound
  exact absurd bound (Nat.lt_irrefl _)

theorem fillFrom_reflects (level : Nat) : ∀ (words : List Word) (filled : Nat),
    level ≤ (of capacity).depth → words.length = (of capacity).words →
    (∀ n, n < filled ↔ n * 64 ^ ((of capacity).depth - level) < capacity) →
    (∀ k < (of capacity).depth, level ≤ k → LevelReflects capacity words (fun i => i < capacity) k) →
    (∀ k < level, ∀ w < count capacity k, capacity ≤ w * 64 ^ ((of capacity).depth - k) →
      words.getD ((of capacity).place k w) 0 = 0) →
    Reflects capacity ((of capacity).fillFrom level filled words) (fun i => i < capacity) := by
  induction level with
  | zero => exact fun words _ _ length _ low _ =>
      ⟨length, fun _ => id, fun k inside => low k inside (Nat.zero_le k)⟩
  | succ level ih =>
    intro words filled enough length exact low blank
    have inside : level < (of capacity).depth := by omega
    have span : (of capacity).depth - (level + 1) = (of capacity).depth - 1 - level := by omega
    have parents := filled_parents inside exact
    have few := filled_few inside parents
    rw [span] at exact
    rw [fillFrom]
    set value : Nat → Word := fun w => live (min 64 (filled - w * 64))
    set words' := (range ((filled + 63) / 64)).foldl
      (fun words w => words.set ((of capacity).place level w) (value w)) words
    have get : ∀ b < (of capacity).depth, ∀ v < count capacity b,
        words'.getD ((of capacity).place b v) 0 = if b = level ∧ v < (filled + 63) / 64 then value v
          else words.getD ((of capacity).place b v) 0 :=
      fun b second v right => (filled_get length inside second right value _ few).1
    have length' : words'.length = (of capacity).words :=
      (filled_get length inside inside (count_pos inside) value _ few).2
    refine ih words' _ (by omega) length' parents (fun k bound above => ?_) fun k above w small past => ?_
    · rcases Nat.eq_or_lt_of_le above with rfl | above
      · intro n small
        have members : (∃ i, i < capacity ∧ i / 64 ^ ((of capacity).depth - 1 - level) = n) ↔
            n < filled := by
          rw [exact]
          constructor
          · rintro ⟨i, below, rfl⟩
            exact Nat.lt_of_le_of_lt (Nat.div_mul_le_self _ _) below
          · exact fun first => ⟨_, first, Nat.mul_div_cancel _ (Nat.pow_pos (by decide))⟩
        rw [members, get level inside _ small]
        by_cases written : n / 64 < (filled + 63) / 64
        · rw [if_pos ⟨rfl, written⟩, live_get _ (Nat.min_le_left _ _) _ (Nat.mod_lt _ (by decide)),
            decide_eq_true_iff]
          omega
        · have past := (parents (n / 64)).not.mp written
          rw [if_neg fun both => written both.2, blank level (Nat.lt_succ_self level) _ small (by omega),
            word_zero.mp rfl _ (Nat.mod_lt _ (by decide))]
          constructor
          · exact nofun
          · omega
      · intro n small
        rw [get k bound _ small, if_neg fun both => absurd both.1 (by omega)]
        exact low k bound above n small
    · rw [get k (by omega) w small, if_neg fun both => absurd both.1 (by omega)]
      exact blank k (by omega) w small past

theorem fill_reflects (said : Reflects capacity words members) :
    Reflects capacity ((of capacity).fill words) (fun i => i < capacity) := by
  apply fillFrom_reflects _ words capacity (Nat.le_refl _) said.length
  · intro n
    rw [Nat.sub_self, Nat.pow_zero, Nat.mul_one]
  · exact fun k inside above => absurd above (by omega)
  · intro k inside w small past
    by_contra some_bit
    obtain ⟨i, held, under⟩ := (word_members (said.bits k inside) inside small).mp some_bit
    have below := said.within i held
    have least := Nat.div_mul_le_self i (64 ^ ((of capacity).depth - k))
    rw [under] at least
    omega

theorem blank_reflects (length : words.length = (of capacity).words) (blank : ∀ w ∈ words, w = 0) :
    Reflects capacity words (fun i => i ∈ (∅ : Finset Nat)) where
  length := length
  within := fun _ held => absurd held (Finset.notMem_empty _)
  bits := by
    intro level inside n small
    have zero : words.getD ((of capacity).place level (n / 64)) 0 = 0 := by
      rw [getD_eq_getElem?_getD, getElem?_eq_getElem (length ▸ place_inside inside small)]
      exact blank _ (getElem_mem _)
    rw [zero, word_zero.mp rfl _ (Nat.mod_lt _ (by decide))]
    constructor
    · exact nofun
    · exact fun ⟨i, held, _⟩ => absurd held (Finset.notMem_empty _)

/-! ### Looking for an index -/

theorem place_root : (of capacity).place 0 0 = 0 := by
  rw [place_eq (depth_pos capacity), take_zero]
  rfl

section
variable (said : Reflects capacity words members)
include said

theorem root_members (allowed : capacity ≤ maxCapacity) : words.getD 0 0 ≠ 0 ↔ ∃ i, members i := by
  have inside := depth_pos capacity
  have root := word_members (said.bits 0 inside) inside (w := 0) (count_pos inside)
  rw [place_root] at root
  rw [root]
  constructor
  · exact fun ⟨i, held, _⟩ => ⟨i, held⟩
  · rintro ⟨i, held⟩
    have bound := count_bound inside (said.within i held)
    rw [count_root allowed] at bound
    exact ⟨i, held, Nat.lt_one_iff.mp bound⟩

theorem peek_path {least : Nat} (held : members least) (first : ∀ i, members i → least ≤ i)
    (allowed : capacity ≤ maxCapacity) (level : Nat) (enough : level ≤ (of capacity).depth) : (range level).foldl
    (fun index level => index <<< 6 ||| countlZero (words.getD ((of capacity).place level index) 0)) 0 = least / 64 ^
    ((of capacity).depth - level) := by
  have below := said.within least held
  induction level with
  | zero =>
    have bound := count_bound (depth_pos capacity) below
    rw [count_root allowed] at bound
    exact (Nat.lt_one_iff.mp bound).symm
  | succ level ih =>
    have inside : level < (of capacity).depth := by omega
    have span : (of capacity).depth - (level + 1) = (of capacity).depth - 1 - level := by omega
    rw [range_succ, foldl_append, foldl_cons, foldl_nil, ih (by omega), span, ← up least inside]
    set node := least / 64 ^ ((of capacity).depth - 1 - level) with node_eq
    have small : node / 64 < count capacity level := by
      rw [node_eq, up least inside]
      exact count_bound inside below
    set word := words.getD ((of capacity).place level (node / 64)) 0 with word_eq
    have some_bit : word ≠ 0 := (word_members (said.bits level inside) inside small).mpr
      ⟨least, held, (up least inside).symm⟩
    obtain ⟨bound, set, clear⟩ := countlZero_spec some_bit
    -- The first bit is not after the least member's, and what is below it is not before.
    have after : countlZero word ≤ node % 64 := by
      by_contra before
      have own := (said.bits level inside node small).mpr ⟨least, held, rfl⟩
      rw [← word_eq, clear _ (by omega)] at own
      cases own
    have before : node ≤ 64 * (node / 64) + countlZero word := by
      have here := said.bits level inside (64 * (node / 64) + countlZero word)
      rw [show (64 * (node / 64) + countlZero word) / 64 = node / 64 by omega,
        show (64 * (node / 64) + countlZero word) % 64 = countlZero word by omega] at here
      obtain ⟨i, other, under⟩ := (here small).mp set
      rw [← under]
      exact Nat.div_le_div_right (first i other)
    rw [← Nat.shiftLeft_add_eq_or_of_lt bound, Nat.shiftLeft_eq]
    omega

theorem peek_spec (allowed : capacity ≤ maxCapacity) : ((∀ i, ¬ members i) ∧ (of capacity).peek words = capacity) ∨
      members ((of capacity).peek words) ∧ ∀ i, members i → (of capacity).peek words ≤ i := by
  rw [peek]
  by_cases blank : words.getD 0 0 = 0
  · rw [if_pos blank]
    exact Or.inl ⟨fun i held => (root_members said allowed).mpr ⟨i, held⟩ blank, rfl⟩
  · rw [if_neg blank]
    have some_member := (root_members said allowed).mp blank
    classical
    have held := Nat.find_spec some_member
    have first : ∀ i, members i → Nat.find some_member ≤ i := fun i => Nat.find_min' some_member
    have path := peek_path said held first allowed (of capacity).depth (Nat.le_refl _)
    rw [Nat.sub_self, Nat.pow_zero, Nat.div_one] at path
    rw [path]
    exact Or.inr ⟨held, first⟩

theorem contains_spec (index : Nat) : (of capacity).contains words index = true ↔ members index := by
  have inside : (of capacity).depth - 1 < (of capacity).depth := by
    have := depth_pos capacity
    omega
  rw [contains, Bool.and_eq_true, decide_eq_true_iff, decide_eq_true_iff, test_bit (Nat.mod_lt _ (by decide))]
  have leaf : index < capacity → ((words.getD ((of capacity).place ((of capacity).depth - 1)
      (index / 64)) 0).getMsbD (index % 64) = true ↔ members index) := by
    intro below
    have small := count_bound inside below
    rw [show (of capacity).depth - ((of capacity).depth - 1) = 1 by omega, Nat.pow_one] at small
    rw [said.bits _ inside index small, Nat.sub_self]
    simp
  constructor
  · exact fun ⟨below, raised⟩ => (leaf below).mp raised
  · exact fun held => ⟨said.within index held, (leaf (said.within index held)).mpr held⟩

end

end Layout

namespace Mask
variable {capacity : Nat} {m : Mask} {members : Nat → Prop}

theorem empty_iff (said : Layout.Reflects capacity m.words members) (allowed : capacity ≤ Layout.maxCapacity) :
    m.empty = true ↔ ∀ i, ¬ members i := by
  have root := Layout.root_members said allowed
  rw [empty, decide_eq_true_iff, ← not_iff_not]
  exact root.trans not_forall_not.symm

theorem take_spec (layout : m.layout = Layout.of capacity) (said : Layout.Reflects capacity m.words members)
    (allowed : capacity ≤ Layout.maxCapacity) (some_member : m.empty = false) : members m.take.1 ∧
    m.take.2.layout = Layout.of capacity ∧
    Layout.Reflects capacity m.take.2.words (fun i => members i ∧ i ≠ m.take.1) := by
  have peek : m.peek = (Layout.of capacity).peek m.words := by rw [Mask.peek, layout]
  rcases Layout.peek_spec said allowed with ⟨none, -⟩ | ⟨held, -⟩
  · rw [(empty_iff said allowed).mpr none] at some_member
    cases some_member
  · rw [← peek] at held
    have below := said.within _ held
    have inside : m.peek ≠ m.layout.capacity := by
      rw [layout]
      exact Nat.ne_of_lt below
    rw [take, if_pos inside]
    refine ⟨held, layout, ?_⟩
    change Layout.Reflects capacity (m.layout.erase m.words m.peek) _
    rw [layout]
    exact Layout.erase_reflects said held

end Mask

end Nxt.Land

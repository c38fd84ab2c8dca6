import Nxt.Lib.Chain
import Nxt.Wisp.Graph
import Nxt.Wisp.Validate

/- Guest lists, and what the validator's colouring of list cells decides: a list passes exactly
   when it ends and all its items have the tag asked for. -/
namespace Nxt.Wisp
open Nxt.Lib List

theorem demand_ok {good : Bool} {message : String} : demand good message = .ok () ↔ good = true := by
  unfold demand
  split <;> simp_all

theorem demand_iff {p : Prop} [Decidable p] {message : String} : demand (decide p) message = .ok () ↔ p := by
  rw [demand_ok, decide_eq_true_iff]

theorem typed_ok {x : Word} {type : Tag} : typed x type = .ok () ↔ tagOf x = type := by
  rw [typed, demand_ok, decide_eq_true_iff]

namespace Heap

def Fit (h : Heap) (x : Word) : Prop := checkValue h x = .ok ()

def Fitting (h : Heap) : Prop :=
  ∀ k, ∀ data ∈ h.table k, ∀ c ∈ Tidy.valueColumns k, h.Fit (data.getD c 0)

def links (h : Heap) : Links Word Word where
  stop := nil
  cell x := tagOf x = .duo
  item := h.get .duo .car
  next := h.get .duo .cdr
  outside := by decide

def ListOf (h : Heap) (element : Tag) (x : Word) : Prop :=
  ∃ xs, h.links.Items x xs ∧ ∀ y ∈ xs, tagOf y = element

end Heap

section Pointers
variable {h : Heap} {x : Word} {k : Kind}

theorem fit_pointer (fit : h.Fit x) (tag : tagOf x = k.tag) : eraOf x = h.era ∧ indexOf x < (h.table k).length := by
  have kind : (tagOf x).kind? = some k := by
    rw [tag]
    exact kind?_tag k
  unfold Heap.Fit checkValue at fit
  rw [kind] at fit
  exact of_decide_eq_true (demand_ok.mp fit)

theorem fit_of_pointer (tag : tagOf x = k.tag) (era : eraOf x = h.era)
    (inside : indexOf x < (h.table k).length) : h.Fit x := by
  have kind : (tagOf x).kind? = some k := by
    rw [tag]
    exact kind?_tag k
  unfold Heap.Fit checkValue
  rw [kind]
  exact demand_ok.mpr (decide_eq_true ⟨era, inside⟩)

theorem fit_injective {y : Word} (fit : h.Fit x) (tag : tagOf x = k.tag) (other : h.Fit y)
    (kind : tagOf y = k.tag) (same : indexOf x = indexOf y) : x = y := by
  rw [← pointer_eta tag, ← pointer_eta kind, same, (fit_pointer fit tag).1,
    (fit_pointer other kind).1]

theorem read_mem (fit : h.Fit x) (tag : tagOf x = k.tag) : h.read k x ∈ h.table k := by
  have inside := (fit_pointer fit tag).2
  rw [Heap.read, Heap.row, getD_eq_getElem?_getD, getElem?_eq_getElem inside]
  exact getElem_mem inside

theorem fit_get (fitting : h.Fitting) (fit : h.Fit x) (tag : tagOf x = k.tag) {f : Field}
    (value : columnIndex k f ∈ Tidy.valueColumns k) : h.Fit (h.get k f x) :=
  fitting k _ (read_mem fit tag) _ value

theorem fit_tail (fitting : h.Fitting) (fit : h.Fit x) (tag : tagOf x = .duo) :
    h.Fit (h.get .duo .cdr x) := fit_get (k := .duo) fitting fit tag (by decide)

end Pointers

section Chains
variable {h : Heap} {x : Word} {xs : List Word}

section
variable (fitting : h.Fitting) (items : h.links.Items x xs) (fit : h.Fit x)
include fitting items fit

theorem fit_cells : ∀ c ∈ h.links.cells x xs, h.Fit c := by
  induction xs generalizing x with
  | nil => simp [Links.cells]
  | cons y ys ih =>
    intro c held
    rcases mem_cons.mp held with rfl | later
    · exact fit
    · exact ih items.2.2 (fit_tail fitting fit items.1) c later

theorem items_fit : ∀ y ∈ xs, h.Fit y := by
  induction xs generalizing x with
  | nil => simp
  | cons y ys ih =>
    intro z held
    rcases mem_cons.mp held with rfl | later
    · have head : h.get .duo .car x = z := items.2.1
      rw [← head]
      exact fit_get (k := .duo) fitting fit items.1 (by decide)
    · exact ih items.2.2 (fit_tail fitting fit items.1) z later

theorem items_short : xs.length ≤ (h.table .duo).length := by
  have fits := fit_cells fitting items fit
  have cells := Links.cells_are_cells items
  apply Links.items_length_le items indexOf
  · intro c held
    exact (fit_pointer (k := .duo) (fits c held) (cells c held)).2
  · intro c held d other same
    exact fit_injective (k := .duo) (fits c held) (cells c held) (fits d other) (cells d other) same

end

end Chains

section Colouring
variable {h : Heap} {element : Tag} {x : Word} {xs : List Word} {colors : List Nat}

def trail (h : Heap) (colors : List Nat) : Word → List Word → List Nat
  | _, [] => []
  | x, _ :: ys =>
      if colors.getD (indexOf x) 0 = 2 then []
      else indexOf x :: trail h colors (h.get .duo .cdr x) ys

def paint (color : Nat) (colors places : List Nat) : List Nat :=
  places.foldl (fun colors i => colors.set i color) colors

structure Colored (h : Heap) (element : Tag) (colors : List Nat) : Prop where
  size : colors.length = (h.table .duo).length
  black : ∀ x, tagOf x = .duo → h.Fit x → colors.getD (indexOf x) 0 = 2 → h.ListOf element x
  grey : ∀ i, colors.getD i 0 ≠ 1

theorem getD_set_color {i j c : Nat} (inside : i < colors.length) :
    (colors.set i c).getD j 0 = if i = j then c else colors.getD j 0 := by
  simp only [getD_eq_getElem?_getD, getElem?_set]
  split
  · rename_i same
    subst same
    simp
  · rfl

theorem paint_length (color : Nat) (places : List Nat) : (paint color colors places).length = colors.length := by
  induction places generalizing colors with
  | nil => rfl
  | cons i rest ih =>
    rw [paint, foldl_cons, ← paint, ih, length_set]

theorem getD_paint (color : Nat) {places : List Nat} (inside : ∀ i ∈ places, i < colors.length)
    (j : Nat) : (paint color colors places).getD j 0 = if j ∈ places then color else colors.getD j 0 := by
  induction places generalizing colors with
  | nil => rfl
  | cons i rest ih =>
    rw [paint, foldl_cons, ← paint]
    have later : ∀ k ∈ rest, k < (colors.set i color).length := by
      intro k held
      rw [length_set]
      exact inside k (mem_cons_of_mem _ held)
    rw [ih later, getD_set_color (inside i mem_cons_self)]
    by_cases found : j ∈ rest
    · simp [found]
    · by_cases here : j = i
      · simp [here]
      · simp [found, here, Ne.symm here]

theorem trail_inside (fitting : h.Fitting) (items : h.links.Items x xs) (fit : h.Fit x) :
    ∀ i ∈ trail h colors x xs, ∃ c ∈ h.links.cells x xs, indexOf c = i := by
  induction xs generalizing x with
  | nil => simp [trail]
  | cons y ys ih =>
    intro i held
    rw [trail] at held
    split at held
    · cases held
    · rcases mem_cons.mp held with rfl | later
      · exact ⟨x, mem_cons_self, rfl⟩
      · obtain ⟨c, cell, same⟩ := ih items.2.2 (fit_tail fitting fit items.1) i later
        exact ⟨c, mem_cons_of_mem _ cell, same⟩

theorem trail_bound (fitting : h.Fitting) (items : h.links.Items x xs) (fit : h.Fit x) :
    ∀ i ∈ trail h colors x xs, i < (h.table .duo).length := by
  intro i held
  obtain ⟨c, cell, rfl⟩ := trail_inside fitting items fit i held
  have fits := fit_cells fitting items fit c cell
  exact (fit_pointer (k := .duo) fits (Links.cells_are_cells items c cell)).2

theorem trail_white {i : Nat} (held : i ∈ trail h colors x xs) : colors.getD i 0 ≠ 2 := by
  induction xs generalizing x with
  | nil => cases held
  | cons y ys ih =>
    rw [trail] at held
    split at held
    · cases held
    · rename_i open_
      rcases mem_cons.mp held with rfl | later
      · exact open_
      · exact ih later

theorem head_apart (fitting : h.Fitting) {y : Word} {ys : List Word} (items : h.links.Items x (y :: ys)) (fit : h.Fit x)
    {c : Word} (held : c ∈ h.links.cells (h.get .duo .cdr x) ys) : indexOf x ≠ indexOf c := by
  intro same
  have rest : c ∈ h.links.cells x (y :: ys) := mem_cons_of_mem _ held
  have cell := Links.cells_are_cells items c rest
  have equal := fit_injective (k := .duo) fit items.1 (fit_cells fitting items fit c rest) cell same
  have nodup := Links.cells_nodup items
  rw [equal] at held
  subst equal
  exact (nodup_cons.mp nodup).1 held

theorem trail_congr {other : List Nat} (fitting : h.Fitting) (items : h.links.Items x xs) (fit : h.Fit x)
    (same : ∀ c ∈ h.links.cells x xs, other.getD (indexOf c) 0 = 2 ↔ colors.getD (indexOf c) 0 = 2) :
    trail h other x xs = trail h colors x xs := by
  induction xs generalizing x with
  | nil => rfl
  | cons y ys ih =>
    have here := same x mem_cons_self
    have later : trail h other (h.get .duo .cdr x) ys = trail h colors (h.get .duo .cdr x) ys :=
      ih items.2.2 (fit_tail fitting fit items.1) fun c held => same c (mem_cons_of_mem _ held)
    rw [trail, trail, later]
    simp only [here]

theorem properWalk_good (fitting : h.Fitting) {fuel : Nat} {after : List Nat}
    (black : ∀ x, tagOf x = .duo → h.Fit x → colors.getD (indexOf x) 0 = 2 → h.ListOf element x)
    (inside : colors.length = (h.table .duo).length)
    (fit : h.Fit x) (done : properWalk h element fuel x colors = .ok after) : h.ListOf element x := by
  induction fuel generalizing x colors with
  | zero => cases done
  | succ fuel ih =>
    rw [properWalk] at done
    split at done
    · rename_i empty
      exact ⟨[], empty, by simp⟩
    · obtain ⟨_, cell, done⟩ := bind_ok done
      obtain ⟨_, _, done⟩ := bind_ok done
      have tag := typed_ok.mp cell
      split at done
      · rename_i known
        exact black x tag fit known
      · obtain ⟨_, item, done⟩ := bind_ok done
        have place := (fit_pointer (k := .duo) fit tag).2
        have still : ∀ z, tagOf z = .duo → h.Fit z → (colors.set (indexOf x) 1).getD (indexOf z) 0 = 2 →
            h.ListOf element z := by
          intro z cell fits two
          rw [getD_set_color (by omega)] at two
          split at two
          · cases two
          · exact black z cell fits two
        have rest := ih still (by rw [length_set, inside]) (fit_tail fitting fit tag) done
        obtain ⟨ys, items, typed⟩ := rest
        refine ⟨h.get .duo .car x :: ys, ⟨tag, rfl, items⟩, ?_⟩
        intro y held
        rcases mem_cons.mp held with rfl | later
        · exact typed_ok.mp item
        · exact typed y later

theorem properWalk_runs (fitting : h.Fitting) {fuel : Nat} (items : h.links.Items x xs)
    (tags : ∀ y ∈ xs, tagOf y = element) (fit : h.Fit x) (enough : xs.length < fuel)
    (inside : colors.length = (h.table .duo).length)
    (grey : ∀ z, tagOf z = .duo → h.Fit z → colors.getD (indexOf z) 0 = 1 →
      ∃ zs, h.links.Items z zs ∧ xs.length < zs.length) :
    properWalk h element fuel x colors = .ok (paint 1 colors (trail h colors x xs)) := by
  induction xs generalizing x colors fuel with
  | nil =>
    obtain ⟨fuel, rfl⟩ : ∃ n, fuel = n + 1 := ⟨fuel - 1, by simp at enough; omega⟩
    have stop : x = nil := items
    rw [properWalk, if_pos stop]
    rfl
  | cons y ys ih =>
    obtain ⟨fuel, rfl⟩ : ∃ n, fuel = n + 1 := ⟨fuel - 1, by simp at enough; omega⟩
    have tag : tagOf x = .duo := items.1
    have place := (fit_pointer fit (k := .duo) tag).2
    have more : x ≠ nil := by
      rintro rfl
      cases tag
    have white : colors.getD (indexOf x) 0 ≠ 1 := by
      intro one
      obtain ⟨zs, again, longer⟩ := grey x tag fit one
      rw [Links.items_unique again items] at longer
      omega
    have first : demand (decide (colors.getD (indexOf x) 0 ≠ 1)) "cyclic machine list" = .ok () :=
      demand_ok.mpr (decide_eq_true white)
    have cell : typed x .duo = .ok () := typed_ok.mpr tag
    have item : typed (h.get .duo .car x) element = .ok () := by
      apply typed_ok.mpr
      have head : h.get .duo .car x = y := items.2.1
      rw [head]
      exact tags y mem_cons_self
    rw [properWalk, if_neg more, cell]
    simp only [Bind.bind, Except.bind, first, trail]
    split
    · rfl
    · rw [item]
      simp only
      have ahead : ∀ z, tagOf z = .duo → h.Fit z → (colors.set (indexOf x) 1).getD (indexOf z) 0 = 1 →
          ∃ zs, h.links.Items z zs ∧ ys.length < zs.length := by
        intro z cell fits one
        rw [getD_set_color (by omega)] at one
        split at one
        · rename_i same
          have equal := fit_injective (k := .duo) fit tag fits cell same
          rw [← equal]
          exact ⟨y :: ys, items, Nat.lt_succ_self _⟩
        · obtain ⟨zs, chain, longer⟩ := grey z cell fits one
          exact ⟨zs, chain, Nat.lt_of_succ_lt longer⟩
      have rest : properWalk h element fuel (h.get .duo .cdr x) (colors.set (indexOf x) 1) =
          .ok (paint 1 (colors.set (indexOf x) 1)
            (trail h (colors.set (indexOf x) 1) (h.get .duo .cdr x) ys)) :=
        ih items.2.2 (fun z held => tags z (mem_cons_of_mem _ held)) (fit_tail fitting fit tag)
          (by simp at enough; omega) (by rw [length_set, inside]) ahead
      rw [rest]
      have same : trail h (colors.set (indexOf x) 1) (h.get .duo .cdr x) ys =
          trail h colors (h.get .duo .cdr x) ys := by
        apply trail_congr fitting items.2.2 (fit_tail fitting fit tag)
        intro c held
        rw [getD_set_color (by omega), if_neg (head_apart fitting items fit held)]
      rw [same]
      rfl

theorem properMark_runs (colors grey : List Nat) (fitting : h.Fitting) {fuel : Nat}
    (items : h.links.Items x xs) (fit : h.Fit x) (enough : xs.length < fuel)
    (inside : grey.length = (h.table .duo).length) (ones : ∀ i ∈ trail h colors x xs, grey.getD i 0 = 1)
    (twos : ∀ c ∈ h.links.cells x xs, colors.getD (indexOf c) 0 = 2 → grey.getD (indexOf c) 0 = 2) :
    properMark h fuel x grey = paint 2 grey (trail h colors x xs) := by
  induction xs generalizing x grey fuel with
  | nil =>
    obtain ⟨fuel, rfl⟩ : ∃ n, fuel = n + 1 := ⟨fuel - 1, by simp at enough; omega⟩
    have stop : x = nil := items
    rw [properMark, if_neg (by simp [stop])]
    rfl
  | cons y ys ih =>
    obtain ⟨fuel, rfl⟩ : ∃ n, fuel = n + 1 := ⟨fuel - 1, by simp at enough; omega⟩
    have tag : tagOf x = .duo := items.1
    have place := (fit_pointer fit (k := .duo) tag).2
    have more : x ≠ nil := by
      rintro rfl
      cases tag
    rw [properMark, trail]
    by_cases known : colors.getD (indexOf x) 0 = 2
    · have two := twos x mem_cons_self known
      rw [if_pos known, if_neg (by rw [two]; simp)]
      rfl
    · have one : grey.getD (indexOf x) 0 = 1 := by
        apply ones
        rw [trail, if_neg known]
        exact mem_cons_self
      rw [if_neg known, if_pos ⟨more, one⟩]
      have apart := fun c held => head_apart (c := c) fitting items fit held
      apply ih _ items.2.2 (fit_tail fitting fit tag) (by simp at enough; omega)
        (by rw [length_set, inside])
      · intro i held
        obtain ⟨c, cell, rfl⟩ := trail_inside fitting items.2.2 (fit_tail fitting fit tag) i held
        rw [getD_set_color (by omega), if_neg (apart c cell)]
        apply ones
        rw [trail, if_neg known]
        exact mem_cons_of_mem _ held
      · intro c cell two
        rw [getD_set_color (by omega), if_neg (apart c cell)]
        exact twos c (mem_cons_of_mem _ cell) two

theorem proper_runs (fitting : h.Fitting) (rows : (h.table .duo).length ≤ maxIndex + 1)
    (colored : Colored h element colors) (fit : h.Fit x) (list : h.ListOf element x) :
    ∃ after, proper h x element colors = .ok after ∧ Colored h element after := by
  obtain ⟨xs, items, tags⟩ := list
  have short := items_short fitting items fit
  have enough : xs.length < listFuel := by
    unfold listFuel
    omega
  have walked := properWalk_runs fitting items tags fit enough colored.size
    fun z _ _ one => absurd one (colored.grey _)
  have bound : ∀ i ∈ trail h colors x xs, i < colors.length := by
    rw [colored.size]
    exact trail_bound fitting items fit
  have marked := properMark_runs colors (paint 1 colors (trail h colors x xs))
    fitting items fit enough (by rw [paint_length, colored.size])
    (fun i held => by rw [getD_paint 1 bound, if_pos held])
    (fun c cell two => by
      rw [getD_paint 1 bound, two]
      split
      · rename_i held
        exfalso
        exact trail_white held two
      · rfl)
  have again : ∀ i ∈ trail h colors x xs, i < (paint 1 colors (trail h colors x xs)).length := by
    rw [paint_length]
    exact bound
  refine ⟨paint 2 (paint 1 colors (trail h colors x xs)) (trail h colors x xs), ?_, ?_⟩
  · rw [proper, walked, ← marked]
    rfl
  · constructor
    · rw [paint_length, paint_length, colored.size]
    · intro z tag fits two
      rw [getD_paint 2 again, getD_paint 1 bound] at two
      split at two
      · rename_i held
        obtain ⟨c, cell, same⟩ := trail_inside fitting items fit _ held
        have equal := fit_injective (k := .duo) (fit_cells fitting items fit c cell)
          (Links.cells_are_cells items c cell) fits tag same
        subst equal
        obtain ⟨zs, rest, -, suffix⟩ := Links.items_of_cell items cell
        exact ⟨zs, rest, fun y held => tags y (suffix.mem held)⟩
      · exact colored.black z tag fits two
    · intro i
      rw [getD_paint 2 again, getD_paint 1 bound]
      split
      · decide
      · exact colored.grey i

theorem proper_ok (fitting : h.Fitting) (colored : Colored h element colors) (fit : h.Fit x)
    {after : List Nat} (done : proper h x element colors = .ok after) : h.ListOf element x := by
  obtain ⟨walked, walk, -⟩ := bind_ok done
  exact properWalk_good fitting colored.black colored.size fit walk

theorem checkPackageRows_ok (pkgs : List Row) (fitting : h.Fitting) (rows : (h.table .duo).length ≤ maxIndex + 1)
    (colored : Colored h .sym colors) (fits : ∀ data ∈ pkgs, h.Fit (data.getD (columnIndex .pkg .sym) 0)) :
    (∃ after, checkPackageRows h pkgs colors = .ok after) ↔
    ∀ data ∈ pkgs, tagOf (data.getD (columnIndex .pkg .nam) 0) = .v08 ∧
      h.ListOf .sym (data.getD (columnIndex .pkg .sym) 0) := by
  induction pkgs generalizing colors with
  | nil => simp [checkPackageRows]
  | cons data rest ih =>
    have fit := fits data mem_cons_self
    have later : ∀ other ∈ rest, h.Fit (other.getD (columnIndex .pkg .sym) 0) :=
      fun other held => fits other (mem_cons_of_mem _ held)
    constructor
    · intro done
      obtain ⟨after, done⟩ := done
      obtain ⟨_, named, done⟩ := bind_ok done
      obtain ⟨middle, first, done⟩ := bind_ok done
      have list := proper_ok fitting colored fit first
      obtain ⟨between, again, still⟩ := proper_runs fitting rows colored fit list
      have same : between = middle := Except.ok.inj (again.symm.trans first)
      rw [same] at still
      have tail := (ih still later).mp ⟨after, done⟩
      intro other held
      rcases mem_cons.mp held with rfl | further
      · exact ⟨typed_ok.mp named, list⟩
      · exact tail other further
    · intro all
      obtain ⟨named, list⟩ := all data mem_cons_self
      obtain ⟨middle, first, still⟩ := proper_runs fitting rows colored fit list
      obtain ⟨after, tail⟩ := (ih still later).mpr
        fun other held => all other (mem_cons_of_mem _ held)
      refine ⟨after, ?_⟩
      rw [checkPackageRows, typed_ok.mpr named]
      simp only [Bind.bind, Except.bind, first]
      exact tail

end Colouring

section Registered
variable {h : Heap} {x : Word} {ps : List Word}

theorem registered_runs {fuel : Nat} (seen : List Word) (items : h.links.Items x ps) (enough : ps.length < fuel)
    (fresh : (seen.map h.packageName).Nodup) (result : List Word) : registered h fuel x seen = .ok result ↔
    result = ps.reverse ++ seen ∧ ((ps.reverse ++ seen).map h.packageName).Nodup := by
  induction ps generalizing x fuel seen with
  | nil =>
    obtain ⟨fuel, rfl⟩ : ∃ n, fuel = n + 1 := ⟨fuel - 1, by simp at enough; omega⟩
    have stop : x = nil := items
    rw [registered, if_pos stop]
    simp only [reverse_nil, nil_append, Except.ok.injEq]
    exact ⟨fun same => ⟨same.symm, fresh⟩, fun both => both.1.symm⟩
  | cons p rest ih =>
    obtain ⟨fuel, rfl⟩ : ∃ n, fuel = n + 1 := ⟨fuel - 1, by simp at enough; omega⟩
    have more : x ≠ nil := by
      rintro rfl
      exact absurd items.1 h.links.outside
    have head : h.get .duo .car x = p := items.2.1
    have shape : (p :: rest).reverse ++ seen = rest.reverse ++ (p :: seen) := by simp
    rw [registered, if_neg more, head, shape]
    by_cases unseen : h.packageName p ∉ seen.map h.packageName
    · have apart : p ∉ seen := fun held => unseen (mem_map_of_mem held)
      have first : demand (decide (p ∉ seen ∧ h.packageName p ∉ seen.map h.packageName))
          "duplicate package" = .ok () := demand_ok.mpr (decide_eq_true ⟨apart, unseen⟩)
      simp only [Bind.bind, Except.bind, first]
      exact ih _ items.2.2 (by simp at enough; omega) (nodup_cons.mpr ⟨unseen, fresh⟩)
    · have clash : ¬ ((rest.reverse ++ p :: seen).map h.packageName).Nodup := by
        intro nodup
        rw [map_append, map_cons] at nodup
        exact unseen (nodup_cons.mp (nodup_append.mp nodup).2.1).1
      have first : demand (decide (p ∉ seen ∧ h.packageName p ∉ seen.map h.packageName))
          "duplicate package" = .error (.bad "duplicate package") := by
        rw [demand, if_neg]
        simp only [decide_eq_true_eq]
        exact fun both => unseen both.2
      simp only [Bind.bind, Except.bind, first]
      constructor
      · intro never
        cases never
      · intro both
        exact absurd both.2 clash

end Registered

section Search
variable {h : Heap} {x : Word} {xs : List Word}

theorem findFrom_items {name : List UInt8} {fuel : Nat} (items : h.links.Items x xs) (enough : xs.length < fuel) :
    h.findFrom name fuel x = .ok (xs.find? fun sym => h.symbolName sym = name) := by
  induction xs generalizing x fuel with
  | nil =>
    obtain ⟨fuel, rfl⟩ : ∃ n, fuel = n + 1 := ⟨fuel - 1, by simp at enough; omega⟩
    have stop : x = nil := items
    rw [Heap.findFrom, if_pos stop]
    rfl
  | cons y ys ih =>
    obtain ⟨fuel, rfl⟩ : ∃ n, fuel = n + 1 := ⟨fuel - 1, by simp at enough; omega⟩
    have more : x ≠ nil := by
      rintro rfl
      exact absurd items.1 h.links.outside
    have head : h.get .duo .car x = y := items.2.1
    rw [Heap.findFrom, if_neg more, head, find?_cons]
    by_cases found : h.symbolName y = name
    · simp [found]
    · simp only [found, if_false, decide_false]
      exact ih items.2.2 (by simp at enough; omega)

end Search
end Nxt.Wisp

import Nxt.Lib.Exec
import Nxt.Wisp.Scan

/- Collection is a graph isomorphism: `run` from the state its constructor leaves, and the heap
   it ends with. -/
namespace Nxt.Wisp
open Nxt.Lib List

section Start
variable {h : Heap}

theorem poolSize_ok {size extra n : Nat} (done : poolSize size extra = .ok n)
    (fits : size ≤ maxWord) : n = size + extra ∧ n ≤ maxWord := by
  unfold poolSize at done
  split at done
  · cases done
  · cases done
    omega

theorem sumLengths_ok {ls : List Nat} {total n : Nat} (done : sumLengths ls total = .ok n)
    (fits : total ≤ maxWord) : n = total + ls.sum ∧ n ≤ maxWord := by
  induction ls generalizing total with
  | nil =>
    cases done
    exact ⟨rfl, fits⟩
  | cons len rest ih =>
    obtain ⟨size, grown, tail⟩ := bind_ok done
    obtain ⟨rfl, small⟩ := poolSize_ok grown fits
    obtain ⟨rfl, bound⟩ := ih tail small
    simp only [sum_cons]
    omega

variable {grant : Reservation → Bool} {s : Tidy} {f : Forward}

theorem reserveTables_ok {kinds : List Kind} (done : reserveTables grant h kinds = .ok ()) :
    ∀ k ∈ kinds, (h.table k).length ≤ maxIndex + 1 := by
  induction kinds with
  | nil => simp
  | cons k rest ih =>
    obtain ⟨_, first, tail⟩ := bind_ok done
    intro l held
    rcases mem_cons.mp held with rfl | later
    · unfold reserveTable at first
      split at first
      · cases first
      · omega
    · exact ih tail l later

theorem tidy_ok (done : tidy grant h = .ok s) : s = { old := h } ∧ Reserved h := by
  obtain ⟨_, tables, done⟩ := bind_ok done
  obtain ⟨vectors, first, done⟩ := bind_ok done
  obtain ⟨words, second, done⟩ := bind_ok done
  obtain ⟨_, _, done⟩ := bind_ok done
  obtain ⟨bytes, third, done⟩ := bind_ok done
  obtain ⟨_, _, finished⟩ := bind_ok done
  have ⟨vectorSum, small⟩ := sumLengths_ok first (Nat.zero_le _)
  have ⟨wordSum, bound⟩ := sumLengths_ok second small
  have ⟨byteSum, fits⟩ := sumLengths_ok third (Nat.zero_le _)
  exact ⟨(Except.ok.inj finished).symm, fun k => reserveTables_ok tables k (Kind.mem_all k), by omega, by omega⟩

theorem sumLengths_of_le {ls : List Nat} {total : Nat} (fits : total + ls.sum ≤ maxWord) :
    sumLengths ls total = .ok (total + ls.sum) := by
  induction ls generalizing total with
  | nil => rfl
  | cons len rest ih =>
    rw [sum_cons] at fits
    have room : ¬ len > maxWord - total := by omega
    rw [sumLengths, poolSize, if_neg room]
    have tail : total + len + rest.sum ≤ maxWord := by omega
    rw [sum_cons, ← Nat.add_assoc]
    exact ih tail

theorem reserveTables_of_le (granted : ∀ r, grant r = true)
    {kinds : List Kind} (rows : ∀ k, (h.table k).length ≤ maxIndex + 1) : reserveTables grant h kinds = .ok () := by
  induction kinds with
  | nil => rfl
  | cons k rest ih =>
    have room : ¬ (h.table k).length > maxIndex + 1 := Nat.not_lt.mpr (rows k)
    have first : reserveTable grant k (h.table k).length = .ok () := by
      rw [reserveTable, if_neg room]
      split
      · rfl
      · rw [request, if_pos (granted _)]
    rw [reserveTables, first]
    exact ih

theorem tidy_granted (granted : ∀ r, grant r = true) (reserved : Reserved h) : tidy grant h = .ok { old := h } := by
  have words := reserved.words
  have first : sumLengths (lengths h .v32) 0 = .ok (0 + (lengths h .v32).sum) :=
    sumLengths_of_le (by omega)
  have second : sumLengths (lengths h .record) (0 + (lengths h .v32).sum) =
      .ok (0 + (lengths h .v32).sum + (lengths h .record).sum) := sumLengths_of_le (by omega)
  have third : sumLengths (lengths h .v08) 0 = .ok (0 + (lengths h .v08).sum) :=
    sumLengths_of_le (by have := reserved.bytes; omega)
  simp only [tidy, reserveTables_of_le granted reserved.rows, first, second, third, request,
    granted, if_true, Bind.bind, Except.bind, pure, Except.pure]

theorem weight_unmarked (w : Row → Nat) {rows : Table}
    (unmarked : ∀ data ∈ rows, data.getD 0 0 ≠ zap) : weight w rows = (rows.map w).sum := by
  unfold weight
  congr 1
  apply map_congr_left
  intro data held
  rw [if_neg (unmarked data held)]

theorem start_inv (unmarked : h.Unmarked) : Inv h (fun _ => none) { old := h } := by
  have empty (k : Kind) : ({} : Vat).get k = [] := by cases k <;> rfl
  have rows (k : Kind) (w : Row → Nat) : weight w (h.table k) = ((h.table k).map w).sum :=
    weight_unmarked w (unmarked k)
  exact
    { era := rfl
      words := rfl
      bytes := rfl
      size := fun _ => rfl
      unmoved := fun _ _ => rfl
      marked := nofun
      source := nofun
      target := nofun
      injective := nofun
      surjective := fun k j inside => by simp [empty] at inside
      shape := fun k data held => by simp [empty] at held
      value := nofun
      raw := nofun
      inside := nofun
      slice := nofun
      cover := fun p inside => by simp at inside
      apart := nofun
      text := nofun
      rowsLeft := fun k => by
        rw [rows, empty]
        simp
      wordsLeft := by
        simp only [rows, length_nil, Nat.add_zero]
        rfl
      bytesLeft := by
        simp only [rows, length_nil, Nat.add_zero]
        rfl
      cursor := fun _ => Nat.zero_le _
      wordCursor := Nat.zero_le _
      scanned := nofun
      scannedWords := nofun }

theorem copyValues_spec (ready : Ready h) (xs : List Word) (inv : Inv h f s) (held : ∀ x ∈ xs, Held h x) :
    ∃ g, Extends f g ∧ Inv h g (Tidy.copyValues xs s).2 ∧ Grows s (Tidy.copyValues xs s).2 ∧
      List.Forall₂ (Img g (!h.era)) xs (Tidy.copyValues xs s).1 := by
  induction xs generalizing f s with
  | nil => exact ⟨f, Extends.refl f, inv, Grows.refl s, .nil⟩
  | cons x rest ih =>
    obtain ⟨g, copied⟩ := copy_spec ready inv (held x (mem_cons_self ..)) (Or.inl rfl)
    obtain ⟨m, more, kept, grows, images⟩ := ih copied.inv
      (fun y later => held y (mem_cons_of_mem x later))
    exact ⟨m, copied.more.trans more, kept, copied.grows.trans grows, .cons (img_mono more copied.img) images⟩

theorem held_root (wf : h.WellFormed) {x : Word} (held : x ∈ h.roots) : Held h x :=
  fun a points => ⟨(wf.roots x held a points).1, Reaches.of_root ⟨x, Or.inl held, points⟩⟩

theorem held_pin (wf : h.WellFormed) {x : Word} (held : x ∈ h.pins.map Prod.snd) : Held h x :=
  fun a points => ⟨(wf.pins x held a points).1, Reaches.of_root ⟨x, Or.inr held, points⟩⟩

structure Rooted (h : Heap) (f : Forward) (s : Tidy) : Prop where
  inv : Inv h f s
  pins : ∃ values, s.old.pins = (h.pins.map Prod.fst).zip values ∧
    List.Forall₂ (Img f (!h.era)) (h.pins.map Prod.snd) values
  roots : List.Forall₂ (Img f (!h.era)) h.roots s.old.roots
  kept : s.old = { h with vat := s.old.vat, pins := s.old.pins, roots := s.old.roots }

theorem forall₂_img_mono {g : Forward} (more : Extends f g) {e : Bool} {xs ys : List Word}
    (images : List.Forall₂ (Img f e) xs ys) : List.Forall₂ (Img g e) xs ys :=
  images.imp fun _ _ img => img_mono more img

theorem rooted_start (ready : Ready h) : ∃ f, Rooted h f (Tidy.copyRoots (Tidy.copyPins { old := h })) := by
  obtain ⟨f, -, pinned, grows, pins⟩ := copyValues_spec ready (h.pins.map Prod.snd)
    (start_inv ready.unmarked) (fun _ held => held_pin ready.wf held)
  have inv : Inv h f (Tidy.copyPins { old := h }) := { pinned with }
  have same : (Tidy.copyPins { old := h }).old.roots = h.roots := by
    simp only [Tidy.copyPins]
    rw [grows.old]
  have held : ∀ x ∈ (Tidy.copyPins { old := h }).old.roots, Held h x := by
    rw [same]
    exact fun _ held => held_root ready.wf held
  obtain ⟨g, more, copied, further, roots⟩ := copyValues_spec ready _ inv held
  refine ⟨g, { copied with }, ?_, ?_, ?_⟩
  · refine ⟨(Tidy.copyValues (h.pins.map Prod.snd) { old := h }).1, ?_, forall₂_img_mono more pins⟩
    simp only [Tidy.copyRoots]
    rw [further.old]
    simp only [Tidy.copyPins]
    rw [grows.old]
  · rw [same] at roots
    simp only [Tidy.copyRoots, same]
    exact roots
  · simp only [Tidy.copyRoots]
    rw [further.old]
    simp only [Tidy.copyPins]
    rw [grows.old]
theorem rooted_progress {g : Forward} {u : Tidy} (rooted : Rooted h f s)
    (progress : Progress h f s u g) : Rooted h g u := by
  obtain ⟨values, pins, images⟩ := rooted.pins
  have same := progress.old
  unfold TablesOnly at same
  refine ⟨progress.inv, ⟨values, ?_, forall₂_img_mono progress.more images⟩, ?_, ?_⟩
  · rw [same]
    exact pins
  · rw [same]
    exact forall₂_img_mono progress.more rooted.roots
  · rw [same, rooted.kept]

theorem remaining_le (h : Heap) (s : Tidy) : remaining h s < collectFuel h := by
  have rows : (Kind.all.map fun k => (h.table k).length - s.scan k).sum ≤
      (Kind.all.map fun k => (h.table k).length).sum :=
    sum_le_sum fun k _ => Nat.sub_le _ _
  simp only [remaining, collectFuel, pooledWords]
  omega

theorem copied_done (ready : Ready h) :
    ∃ f, Rooted h f (Tidy.copied (collectFuel h) { old := h }) ∧
      Done (Tidy.copied (collectFuel h) { old := h }) := by
  obtain ⟨f, rooted⟩ := rooted_start ready
  have fueled := remaining_le h (Tidy.copyRoots (Tidy.copyPins { old := h }))
  obtain ⟨g, progress, done⟩ := rounds_done ready (collectFuel h) rooted.inv fueled.le fueled
  exact ⟨g, rooted_progress rooted progress, done⟩

end Start

def forwardMap (f : Forward) : Addr → Addr := fun a => (a.1, (f a).getD 0)

section Finish
variable {h : Heap} {f : Forward} {s : Tidy}

variable {e : Bool} {o n : Word} {a : Addr} {xs ys : List Word} {j : Nat}

theorem img_image (img : Img f e o n) : n = image (forwardMap f) e o := by
  unfold Img at img
  unfold image
  cases points : addr? o with
  | none =>
    rw [points] at img
    exact img
  | some a =>
    rw [points] at img
    obtain ⟨j, found, eq⟩ := img
    simp only [forwardMap, found, Option.getD_some, eq]

theorem img_forward (img : Img f e o n) (points : addr? o = some a) : ∃ j, f a = some j := by
  simp only [Img, points] at img
  obtain ⟨j, found, -⟩ := img
  exact ⟨j, found⟩

theorem forall₂_image (images : List.Forall₂ (Img f e) xs ys) : ys = xs.map (image (forwardMap f) e) := by
  induction images with
  | nil => rfl
  | cons img _ ih => rw [map_cons, ← img_image img, ih]

theorem forall₂_forward (images : List.Forall₂ (Img f e) xs ys)
    {w : Word} (held : w ∈ xs) (points : addr? w = some a) : ∃ j, f a = some j := by
  induction images with
  | nil => cases held
  | cons img _ ih =>
    rcases mem_cons.mp held with rfl | later
    · exact img_forward img points
    · exact ih later

section Closed
variable (inv : Inv h f s) (done : Done s)
include inv done

theorem value_img {a : Addr} {j c : Nat} (found : f a = some j) (column : columnKind a.1 c = some .value) :
    Img f (!h.era) (h.cell a c) (cell (s.next.get a.1) j c) := by
  have inside := inv.target a j found
  have all := done.rows a.1
  exact inv.scanned a j found (by omega) c column

theorem word_img {a : Addr} {j n : Nat} (found : f a = some j)
    (payload : wordPayload a.1 = true) (small : n < h.length a) : Img f (!h.era) (h.words.getD (h.offset a + n) 0)
      (s.words.getD ((cell (s.next.get a.1) j 0).toNat + n) 0) := by
  have inside := inv.inside a j found payload
  have all := done.words
  exact inv.scannedWords a j found payload n small (by omega)

theorem field_forward {a b : Addr} {j : Nat} (found : f a = some j) (edge : h.Edge a b) : ∃ i, f b = some i := by
  obtain ⟨w, field, points⟩ := edge
  rcases mem_append.mp field with column | payload
  · obtain ⟨c, value, rfl⟩ := mem_map.mp column
    exact img_forward (value_img inv done found (mem_valueColumns.mp value)) points
  · split at payload
    · rename_i kind
      obtain ⟨n, small, rfl⟩ := mem_iff_getElem.mp payload
      have short : n < h.length a := by
        simp only [Heap.payload, length_take] at small
        omega
      have word := word_img inv done found kind short
      rw [← getD_slice h.words (h.offset a) (h.length a) n 0 short] at word
      have same : (h.payload a).getD n 0 = (h.payload a)[n] := by
        simp [getD_eq_getElem?_getD, small]
      exact img_forward (same ▸ word) points
    · cases payload

end Closed

theorem all_forwarded (rooted : Rooted h f s) (done : Done s) (reach : h.Reachable a) : ∃ j, f a = some j := by
  obtain ⟨values, -, pins⟩ := rooted.pins
  apply Reaches.least (fun a => ∃ j, f a = some j) ?_ ?_ reach
  · intro r ⟨w, held, points⟩
    rcases held with root | pin
    · exact forall₂_forward rooted.roots root points
    · exact forall₂_forward pins pin points
  · intro a b _ ⟨j, found⟩ edge
    exact field_forward rooted.inv done found edge

theorem releaseExternals_eq (h : Heap) :
    h.releaseExternals = { h with released := h.releaseExternals.released } := by
  unfold Heap.releaseExternals
  split <;> rfl

theorem finish_eq (s : Tidy) :
    s.finish = { s.old with
      vat := s.next, bytes := s.bytes, words := s.words, era := !s.old.era,
      frozenKtx := (s.next.get .ktx).length, released := s.old.releaseExternals.released } := by
  rw [Tidy.finish, releaseExternals_eq]
  rfl

theorem finish_cell (s : Tidy) (a : Addr) (c : Nat) : s.finish.cell a c = cell (s.next.get a.1) a.2 c := by
  rw [finish_eq]
  rfl

theorem finish_live (s : Tidy) (a : Addr) : s.finish.Live a ↔ a.2 < (s.next.get a.1).length := by
  rw [finish_eq]
  rfl

theorem forwardMap_some (found : f a = some j) : forwardMap f a = (a.1, j) := by
  simp only [forwardMap, found, Option.getD_some]

theorem bijection (rooted : Rooted h f s) (done : Done s) :
    Set.BijOn (forwardMap f) {a | h.Reachable a} {b | s.finish.Live b} := by
  refine ⟨?_, ?_, ?_⟩
  · intro a reach
    obtain ⟨j, found⟩ := all_forwarded rooted done reach
    rw [Set.mem_ofPred_eq, finish_live, forwardMap_some found]
    exact rooted.inv.target a j found
  · intro a reach b other same
    obtain ⟨j, found⟩ := all_forwarded rooted done reach
    obtain ⟨i, also⟩ := all_forwarded rooted done other
    rw [forwardMap_some found, forwardMap_some also] at same
    obtain ⟨kind, index⟩ := Prod.ext_iff.mp same
    simp only at kind index
    subst index
    exact rooted.inv.injective a b j kind found also
  · intro b live
    rw [Set.mem_ofPred_eq, finish_live] at live
    obtain ⟨i, found⟩ := rooted.inv.surjective b.1 b.2 live
    exact ⟨(b.1, i), rooted.inv.source _ _ found, forwardMap_some found⟩

theorem finish_length (inv : Inv h f s) (found : f a = some j) (column : columnKind a.1 1 = some .length) :
    s.finish.length (forwardMap f a) = h.length a := by
  rw [Heap.length, finish_cell, forwardMap_some found,
    inv.raw a j found 1 .length column (by decide) (by decide)]
  rfl

theorem finish_payload (inv : Inv h f s) (wf : h.WellFormed) (done : Done s)
    (found : f a = some j) (payload : wordPayload a.1 = true) : s.finish.payload (forwardMap f a) =
      (h.payload a).map (image (forwardMap f) (!h.era)) := by
  have live := reachable_live wf (inv.source a j found)
  have inside := inv.inside a j found payload
  have long := payload_length wf live payload
  have size := finish_length inv found (slice_columns payload).2.1
  have place : s.finish.offset (forwardMap f a) = (cell (s.next.get a.1) j 0).toNat := by
    rw [Heap.offset, finish_cell, forwardMap_some found]
  have pool : s.finish.words = s.words := by rw [finish_eq]
  rw [Heap.payload, place, size, pool]
  apply ext_getElem
  · rw [length_map, long, length_take, length_drop]
    omega
  · intro n small _
    have short : n < h.length a := by
      rw [length_take] at small
      omega
    have word := img_image (word_img inv done found payload short)
    rw [← getD_slice h.words (h.offset a) (h.length a) n 0 short,
      ← getD_slice s.words _ (h.length a) n 0 short] at word
    have within : n < ((h.words.drop (h.offset a)).take (h.length a)).length := by
      rw [← Heap.payload, long]
      exact short
    rw [getElem_map]
    simpa [getD_eq_getElem?_getD, getElem?_eq_getElem small,
      getElem?_eq_getElem within, Heap.payload] using word

theorem finish_isomorphism (ready : Ready h) (rooted : Rooted h f s) (done : Done s) :
    Isomorphism (forwardMap f) h s.finish := by
  have inv := rooted.inv
  have era : s.finish.era = !h.era := by
    rw [finish_eq, ← inv.era]
  exact
    { bijection := bijection rooted done
      kind := fun _ _ => rfl
      era := era
      roots := by
        rw [era, ← forall₂_image rooted.roots, finish_eq]
      pins := by
        obtain ⟨values, pins, images⟩ := rooted.pins
        rw [era, finish_eq]
        simp only [pins, forall₂_image images, map_map]
        rw [zip_map']
        rfl
      value := fun a reach c column => by
        obtain ⟨j, found⟩ := all_forwarded rooted done reach
        rw [era, finish_cell, forwardMap_some found]
        exact img_image (value_img inv done found column)
      raw := fun a reach c r column plain kept => by
        obtain ⟨j, found⟩ := all_forwarded rooted done reach
        rw [finish_cell, forwardMap_some found]
        exact inv.raw a j found c r column plain kept
      payload := fun a reach payload => by
        obtain ⟨j, found⟩ := all_forwarded rooted done reach
        rw [era]
        exact finish_payload inv ready.wf done found payload
      text := fun i reach => by
        obtain ⟨j, found⟩ := all_forwarded rooted done reach
        have size := finish_length inv found (by rfl)
        obtain ⟨-, same⟩ := inv.text i j found
        have place : s.finish.offset (forwardMap f (.v08, i)) =
            (cell (s.next.get .v08) j 0).toNat := by
          rw [Heap.offset, finish_cell, forwardMap_some found]
        have pool : s.finish.bytes = s.bytes := by rw [finish_eq]
        rw [Heap.text, place, size, pool, same] }

theorem img_valid (ready : Ready h) (inv : Inv h f s) (img : Img f (!h.era) o n) : s.finish.Valid n := by
  have era : s.finish.era = !h.era := by
    rw [finish_eq, ← inv.era]
  intro b points
  unfold Img at img
  cases target : addr? o with
  | none =>
    rw [target] at img
    rw [img, target] at points
    cases points
  | some a =>
    rw [target] at img
    obtain ⟨j, found, rfl⟩ := img
    have small := target_lt ready inv found
    rw [addr_pointer a.1 _ small] at points
    cases points
    rw [eraOf_pointer a.1 _ small, era, finish_live]
    exact ⟨rfl, inv.target a j found⟩

theorem forall₂_valid (ready : Ready h) (inv : Inv h f s)
    (images : List.Forall₂ (Img f (!h.era)) xs ys) : ∀ y ∈ ys, s.finish.Valid y := by
  induction images with
  | nil => simp
  | cons img _ ih =>
    intro y held
    rcases mem_cons.mp held with rfl | later
    · exact img_valid ready inv img
    · exact ih y later

theorem finish_rowOk (ready : Ready h) (inv : Inv h f s) (done : Done s) {k : Kind}
    (inside : j < (s.next.get k).length) : s.finish.RowOk k ((s.next.get k).getD j []) := by
  obtain ⟨i, found⟩ := inv.surjective k j inside
  have words : s.finish.words = s.words := by rw [finish_eq]
  have bytes : s.finish.bytes = s.bytes := by rw [finish_eq]
  refine ⟨inv.shape k _ (mem_of_getD inside), ?_, ?_, ?_, ?_⟩
  · intro c column
    exact img_valid ready inv (value_img inv done found (mem_valueColumns.mp column))
  · intro kind
    have length := inv.raw _ j found 1 .length (slice_columns kind).2.1 (by decide) (by decide)
    have fits := inv.inside _ j found kind
    simp only [cell] at length fits
    rw [words, length]
    exact fits
  · intro kind w held
    have length := inv.raw _ j found 1 .length (slice_columns kind).2.1 (by decide) (by decide)
    simp only [cell] at length
    rw [words, length] at held
    obtain ⟨n, small, rfl⟩ := mem_iff_getElem.mp held
    have short : n < h.length (k, i) := by
      rw [length_take] at small
      exact Nat.lt_of_lt_of_le small (Nat.min_le_left _ _)
    have word := img_valid ready inv (word_img inv done found kind short)
    rw [← getD_slice s.words _ (h.length (k, i)) n 0 short] at word
    rw [← getD_eq_getElem _ 0 small]
    exact word
  · intro kind
    subst kind
    have length := inv.raw _ j found 1 .length rfl (by decide) (by decide)
    have fits := (inv.text i j found).1
    simp only [cell] at length fits
    rw [bytes, length]
    exact fits

theorem finish_wellFormed (ready : Ready h) (rooted : Rooted h f s) (done : Done s) :
    s.finish.WellFormed where
  rows k data held := by
    have table : s.finish.table k = s.next.get k := by rw [finish_eq]; rfl
    rw [table] at held
    obtain ⟨j, inside, rfl⟩ := mem_iff_getElem.mp held
    have ok := finish_rowOk ready rooted.inv done inside
    simpa [getD_eq_getElem?_getD, getElem?_eq_getElem inside] using ok
  roots := by
    rw [show s.finish.roots = s.old.roots by rw [finish_eq]]
    exact forall₂_valid ready rooted.inv rooted.roots
  pins := by
    obtain ⟨values, pins, images⟩ := rooted.pins
    rw [show s.finish.pins = s.old.pins by rw [finish_eq], pins]
    have same : ((h.pins.map Prod.fst).zip values).map Prod.snd = values :=
      map_snd_zip (by simpa using images.length_eq.symm.le)
    rw [same]
    exact forall₂_valid ready rooted.inv images

theorem collect_cases (grant : Reservation → Bool) (wf : h.WellFormed) (unmarked : h.Unmarked) :
    (∃ e, tidy grant h = .error e ∧ h.collect grant = (.error e, h)) ∨
      tidy grant h = .ok { old := h } ∧ Ready h ∧
        h.collect grant = (.ok (), (Tidy.copied (collectFuel h) { old := h }).finish) ∧
        ∃ f, Rooted h f (Tidy.copied (collectFuel h) { old := h }) ∧
          Done (Tidy.copied (collectFuel h) { old := h }) := by
  unfold Heap.collect
  cases start : tidy grant h with
  | error e => exact Or.inl ⟨e, rfl, rfl⟩
  | ok s =>
    obtain ⟨rfl, reserved⟩ := tidy_ok start
    have ready : Ready h := ⟨wf, unmarked, reserved⟩
    exact Or.inr ⟨rfl, ready, rfl, copied_done ready⟩

end Finish

/-- A collection that fails in its reservation phase changes nothing; any other copies exactly the
reachable graph. -/
theorem collect_isomorphism (grant : Reservation → Bool) (h : Heap) (wf : h.WellFormed)
    (unmarked : h.Unmarked) : (∀ e, tidy grant h = .error e → h.collect grant = (.error e, h)) ∧
      ∀ s, tidy grant h = .ok s → ∃ f new, h.collect grant = (.ok (), new) ∧ Isomorphism f h new := by
  rcases collect_cases grant wf unmarked with ⟨e, begun, failed⟩ | ⟨begun, ready, collected, f, rooted, done⟩
  · refine ⟨fun e' same => ?_, fun s same => ?_⟩
    · cases begun.symm.trans same
      exact failed
    · cases begun.symm.trans same
  · refine ⟨fun e same => ?_, fun s _ => ?_⟩
    · cases begun.symm.trans same
    · exact ⟨forwardMap f, _, collected, finish_isomorphism ready rooted done⟩

namespace Example

/-- A cycle through a vector that a pin shares, and one row of garbage. -/
def ring : Heap :=
  { vat :=
      { duo := [[pointer .duo 0 false, pointer .v32 0 false], [nil, pointer .duo 2 false],
          [fixnum 5, pointer .duo 0 false]], v32 := [[0, 1]] }
    words := [pointer .duo 0 false]
    pins := [(1, pointer .v32 0 false)]
    nextPin := 2
    roots := [pointer .duo 2 false] }

end Example

/-- The ring is collected. -/
theorem collect_isomorphism_ring : ∃ f new, Example.ring.collect (fun _ => true) = (.ok (), new) ∧
    Isomorphism f Example.ring new :=
  (collect_isomorphism (fun _ => true) Example.ring (by decide +kernel) (by decide +kernel)).2 _ rfl

end Nxt.Wisp

import Nxt.Lib.Reach
import Nxt.Wisp.Tidy

/- The object graph of a heap. A node is a row; its edges leave from the value columns and,
   for vectors and records, from the words of its slice. -/
namespace Nxt.Wisp
open Nxt.Lib List

abbrev Addr := Kind × Nat

/-- The row a word points to, whatever its era; immediates point nowhere. -/
def addr? (w : Word) : Option Addr := (tagOf w).kind?.map fun k => (k, indexOf w)

def columnKind (k : Kind) (c : Nat) : Option FieldKind := ((schema k).map (·.kind))[c]?

def cell (rows : Table) (i c : Nat) : Word := (rows.getD i []).getD c 0

namespace Heap

def cell (h : Heap) (a : Addr) (c : Nat) : Word := Wisp.cell (h.table a.1) a.2 c

def offset (h : Heap) (a : Addr) : Nat := (h.cell a 0).toNat

def length (h : Heap) (a : Addr) : Nat := (h.cell a 1).toNat

def payload (h : Heap) (a : Addr) : List Word := (h.words.drop (h.offset a)).take (h.length a)

def text (h : Heap) (a : Addr) : List UInt8 := (h.bytes.drop (h.offset a)).take (h.length a)

def fields (h : Heap) (a : Addr) : List Word :=
  (Tidy.valueColumns a.1).map (h.cell a) ++ if wordPayload a.1 then h.payload a else []

def Live (h : Heap) (a : Addr) : Prop := a.2 < (h.table a.1).length

/-- An immediate, or a pointer of the current era to a row that exists. -/
def Valid (h : Heap) (w : Word) : Prop :=
  ∀ a, addr? w = some a → eraOf w = h.era ∧ h.Live a

def Root (h : Heap) (a : Addr) : Prop :=
  ∃ w, (w ∈ h.roots ∨ w ∈ h.pins.map Prod.snd) ∧ addr? w = some a

def Edge (h : Heap) (a b : Addr) : Prop := ∃ w ∈ h.fields a, addr? w = some b

def Reachable (h : Heap) : Addr → Prop := Reaches h.Root h.Edge

structure RowOk (h : Heap) (k : Kind) (data : Row) : Prop where
  shape : data.length = width k
  values : ∀ c ∈ Tidy.valueColumns k, h.Valid (data.getD c 0)
  inside : wordPayload k = true →
    (data.getD 0 0).toNat + (data.getD 1 0).toNat ≤ h.words.length
  payload : wordPayload k = true →
    ∀ w ∈ (h.words.drop (data.getD 0 0).toNat).take (data.getD 1 0).toNat, h.Valid w
  text : k = .v08 → (data.getD 0 0).toNat + (data.getD 1 0).toNat ≤ h.bytes.length

structure WellFormed (h : Heap) : Prop where
  rows : ∀ k, ∀ data ∈ h.table k, h.RowOk k data
  roots : ∀ w ∈ h.roots, h.Valid w
  pins : ∀ w ∈ h.pins.map Prod.snd, h.Valid w

/-- No row starts with the collector's forwarding mark. -/
def Unmarked (h : Heap) : Prop := ∀ k, ∀ data ∈ h.table k, data.getD 0 0 ≠ zap

end Heap

-- Each quantifier is decided along the list or option it ranges over, never over all words.
section Decide
variable (h : Heap)

instance decideKinds (p : Kind → Prop) [∀ k, Decidable (p k)] : Decidable (∀ k, p k) :=
  decidable_of_iff (Kind.all.all fun k => p k)
    ⟨fun all k => by simpa using all_eq_true.mp all k (Kind.mem_all k),
      fun all => all_eq_true.mpr fun k _ => by simpa using all k⟩

def decideEach {α : Type} (l : List α) (p : α → Prop) [∀ a, Decidable (p a)] : Decidable (∀ a ∈ l, p a) :=
  decidable_of_iff (l.all fun a => p a) (by simp)

instance decideValid (w : Word) : Decidable (h.Valid w) :=
  decidable_of_iff ((addr? w).all fun a => eraOf w = h.era ∧ a.2 < (h.table a.1).length) (by
    unfold Heap.Valid Heap.Live
    cases addr? w <;> simp)

instance decideUnmarked : Decidable h.Unmarked :=
  letI (k : Kind) : Decidable (∀ data ∈ h.table k, data.getD 0 0 ≠ zap) := decideEach _ _
  inferInstanceAs (Decidable (∀ k, ∀ data ∈ h.table k, data.getD 0 0 ≠ zap))

instance decideRowOk (k : Kind) (data : Row) : Decidable (h.RowOk k data) :=
  letI : Decidable (∀ c ∈ Tidy.valueColumns k, h.Valid (data.getD c 0)) := decideEach _ _
  letI : Decidable (∀ w ∈ (h.words.drop (data.getD 0 0).toNat).take (data.getD 1 0).toNat,
    h.Valid w) := decideEach _ _
  decidable_of_iff
    (data.length = width k ∧ (∀ c ∈ Tidy.valueColumns k, h.Valid (data.getD c 0)) ∧
      (wordPayload k = true → (data.getD 0 0).toNat + (data.getD 1 0).toNat ≤ h.words.length) ∧
      (wordPayload k = true →
        ∀ w ∈ (h.words.drop (data.getD 0 0).toNat).take (data.getD 1 0).toNat, h.Valid w) ∧
      (k = .v08 → (data.getD 0 0).toNat + (data.getD 1 0).toNat ≤ h.bytes.length))
    ⟨fun ⟨shape, values, inside, payload, text⟩ => ⟨shape, values, inside, payload, text⟩,
      fun ok => ⟨ok.shape, ok.values, ok.inside, ok.payload, ok.text⟩⟩

instance decideWellFormed : Decidable h.WellFormed :=
  letI (k : Kind) : Decidable (∀ data ∈ h.table k, h.RowOk k data) := decideEach _ _
  letI : Decidable (∀ w ∈ h.roots, h.Valid w) := decideEach _ _
  letI : Decidable (∀ w ∈ h.pins.map Prod.snd, h.Valid w) := decideEach _ _
  decidable_of_iff
    ((∀ k, ∀ data ∈ h.table k, h.RowOk k data) ∧ (∀ w ∈ h.roots, h.Valid w) ∧
      ∀ w ∈ h.pins.map Prod.snd, h.Valid w)
    ⟨fun ⟨rows, roots, pins⟩ => ⟨rows, roots, pins⟩, fun wf => ⟨wf.rows, wf.roots, wf.pins⟩⟩

end Decide

def image (f : Addr → Addr) (era : Bool) (w : Word) : Word :=
  match addr? w with
  | some a => pointer (f a).1 (f a).2 era
  | none => w

/-- The rows reachable in the old heap and all rows of the new one, matched one to one. -/
structure Isomorphism (f : Addr → Addr) (old new : Heap) : Prop where
  bijection : Set.BijOn f {a | old.Reachable a} {b | new.Live b}
  kind : ∀ a, old.Reachable a → (f a).1 = a.1
  era : new.era = !old.era
  roots : new.roots = old.roots.map (image f new.era)
  pins : new.pins = old.pins.map fun pin => (pin.1, image f new.era pin.2)
  value : ∀ a, old.Reachable a → ∀ c, columnKind a.1 c = some .value →
    new.cell (f a) c = image f new.era (old.cell a c)
  raw : ∀ a, old.Reachable a → ∀ c r, columnKind a.1 c = some r → r ≠ .value → r ≠ .offset →
    new.cell (f a) c = old.cell a c
  payload : ∀ a, old.Reachable a → wordPayload a.1 = true →
    new.payload (f a) = (old.payload a).map (image f new.era)
  text : ∀ i, old.Reachable (.v08, i) → new.text (f (.v08, i)) = old.text (.v08, i)

theorem live_of_valid {h : Heap} {w : Word} {a : Addr} (valid : h.Valid w)
    (points : addr? w = some a) : h.Live a := (valid a points).2

theorem addr_pointer (k : Kind) {i : Nat} (e : Bool) (hi : i < 2 ^ 26) : addr? (pointer k i e) = some (k, i) := by
  simp [addr?, tagOf_pointer k e hi, indexOf_pointer k e hi]

theorem addr_some {w : Word} {a : Addr} (h : addr? w = some a) : tagOf w = a.1.tag ∧ indexOf w = a.2 := by
  simp only [addr?, Option.map_eq_some_iff] at h
  obtain ⟨k, found, rfl⟩ := h
  exact ⟨kind?_eq_some.mp found, rfl⟩

theorem addr_of_kind {w : Word} {k : Kind} (h : (tagOf w).kind? = some k) :
    addr? w = some (k, indexOf w) := by simp [addr?, h]

namespace Heap.WellFormed
variable {h : Heap} (wf : h.WellFormed) {a : Addr} (live : h.Live a)
include wf live

theorem row : h.RowOk a.1 (h.row a.1 a.2) := by
  apply wf.rows
  rw [Heap.row, getD_eq_getElem?_getD, getElem?_eq_getElem live]
  exact getElem_mem live

theorem words (kind : wordPayload a.1 = true) : h.offset a + h.length a ≤ h.words.length :=
  (wf.row live).inside kind

theorem bytes (kind : a.1 = .v08) : h.offset a + h.length a ≤ h.bytes.length :=
  (wf.row live).text kind

theorem values {w : Word} (held : w ∈ h.fields a) : h.Valid w := by
  rcases mem_append.mp held with column | payload
  · obtain ⟨c, value, rfl⟩ := mem_map.mp column
    exact (wf.row live).values c value
  · split at payload
    · rename_i kind
      exact (wf.row live).payload kind w payload
    · cases payload

end Heap.WellFormed

theorem reachable_live {h : Heap} (wf : h.WellFormed) {a : Addr} (reach : h.Reachable a) : h.Live a := by
  apply Reaches.least h.Live ?_ ?_ reach
  · rintro r ⟨w, held, points⟩
    rcases held with root | pin
    · exact live_of_valid (wf.roots w root) points
    · exact live_of_valid (wf.pins w pin) points
  · rintro a b _ live ⟨w, field, points⟩
    exact live_of_valid (wf.values live field) points

end Nxt.Wisp

import Nxt.WebSocket.Text

/- The reader's characters (reader.cpp): what `peek` and `take` make of the bytes of a source, and
   that they and the WebSocket text check accept one language. -/
namespace Nxt.Wisp.Text
open Nxt.Lib List

structure ReadError where
  offset : Nat
  message : String
  deriving DecidableEq

/-- The bytes from the position on, which is never beyond the end of the source. -/
structure Reader where
  rest : List UInt8
  position : Nat := 0
  deriving DecidableEq

def eof : Nat := 0x110000

/-- The bytes of a character that starts with this byte; zero for no character. -/
def leadWidth (lead : Nat) : Nat :=
  if lead ≥ 0xc2 ∧ lead ≤ 0xdf then 2
  else if lead ≥ 0xe0 ∧ lead ≤ 0xef then 3
  else if lead ≥ 0xf0 ∧ lead ≤ 0xf4 then 4
  else 0

/-- The loop over the bytes after the first. -/
def trailing (position : Nat) : List UInt8 → Nat → Except ReadError Nat
  | [], c => .ok c
  | byte :: rest, c =>
      if byte.toNat / 64 ≠ 2 then .error ⟨position, "invalid UTF-8 continuation"⟩
      else trailing position rest (c * 64 + byte.toNat % 64)

namespace Reader

def peek (r : Reader) : Except ReadError Nat :=
  match r.rest with
  | [] => .ok eof
  | lead :: rest =>
      if lead.toNat < 0x80 then .ok lead.toNat
      else
        let width := leadWidth lead.toNat
        if width = 0 ∨ rest.length + 1 < width then
          .error ⟨r.position, "invalid or truncated UTF-8"⟩
        else do
          let c ← trailing r.position (rest.take (width - 1)) (lead.toNat % 2 ^ (7 - width))
          if (width = 3 ∧ c < 0x800) ∨ (width = 4 ∧ c < 0x10000) ∨ (c ≥ 0xd800 ∧ c ≤ 0xdfff) ∨
              c > 0x10ffff then
            .error ⟨r.position, "invalid UTF-8 scalar"⟩
          else .ok c

/-- How far `take` goes for a character. -/
def span (c : Nat) : Nat :=
  if c < 0x80 then 1 else if c < 0x800 then 2 else if c < 0x10000 then 3 else 4

def after (r : Reader) (c : Nat) : Reader :=
  { rest := r.rest.drop (span c), position := r.position + span c }

def take (r : Reader) : Except ReadError (Nat × Reader) := do
  let c ← r.peek
  if c = eof then .error ⟨r.position, "unexpected EOF"⟩ else .ok (c, r.after c)

theorem rest_nonempty {r : Reader} {c : Nat} (looked : r.peek = .ok c) (more : c ≠ eof) : r.rest ≠ [] := by
  intro none
  rw [peek, none] at looked
  exact more (Except.ok.inj looked).symm

theorem after_shorter {r : Reader} {c : Nat} (looked : r.peek = .ok c) (more : c ≠ eof) :
    (r.after c).rest.length < r.rest.length := by
  have some_left := rest_nonempty looked more
  have length := length_pos_of_ne_nil some_left
  have step : 0 < span c := by
    unfold span
    split <;> [skip; split <;> [skip; split]] <;> decide
  rw [after, length_drop]
  omega

/-- One character taken after another, up to the end of the source. -/
def takeAll (r : Reader) : Except ReadError (List Nat) :=
  match _looked : r.peek with
  | .error e => .error e
  | .ok c => if _more : c = eof then .ok [] else (takeAll (r.after c)).map (c :: ·)
termination_by r.rest.length
decreasing_by exact after_shorter _looked _more

end Reader

theorem trailing_ok {position c v : Nat} {bytes : List UInt8} (done : trailing position bytes c = .ok v) :
    (∀ b ∈ bytes, Trail b) ∧ v = bytes.foldl (fun c b => c * 64 + b.toNat % 64) c := by
  induction bytes generalizing c with
  | nil =>
    cases done
    exact ⟨nofun, rfl⟩
  | cons b rest ih =>
    rw [trailing] at done
    split at done
    · cases done
    · rename_i trail
      obtain ⟨trails, value⟩ := ih done
      exact ⟨forall_mem_cons.mpr ⟨not_not.mp trail, trails⟩, value⟩

theorem trailing_of {position c : Nat} {bytes : List UInt8} (trails : ∀ b ∈ bytes, Trail b) :
    trailing position bytes c = .ok (bytes.foldl (fun c b => c * 64 + b.toNat % 64) c) := by
  induction bytes generalizing c with
  | nil => rfl
  | cons b rest ih =>
    obtain ⟨trail, trails⟩ := forall_mem_cons.mp trails
    unfold Trail at trail
    rw [trailing, if_neg (not_not.mpr trail)]
    exact ih trails

theorem leadWidth_cases (lead : Nat) (some_width : leadWidth lead ≠ 0) :
    (0xc2 ≤ lead ∧ lead ≤ 0xdf ∧ leadWidth lead = 2) ∨ (0xe0 ≤ lead ∧ lead ≤ 0xef ∧ leadWidth lead = 3) ∨
      (0xf0 ≤ lead ∧ lead ≤ 0xf4 ∧ leadWidth lead = 4) := by
  unfold leadWidth at some_width ⊢
  split
  · rename_i two
    exact Or.inl ⟨two.1, two.2, rfl⟩
  · split
    · rename_i three
      exact Or.inr (Or.inl ⟨three.1, three.2, rfl⟩)
    · split
      · rename_i four
        exact Or.inr (Or.inr ⟨four.1, four.2, rfl⟩)
      · rename_i two three four
        rw [if_neg two, if_neg three, if_neg four] at some_width
        exact absurd rfl some_width

namespace Reader
variable {r : Reader} {v : Nat} {bytes text : List UInt8}

theorem peek_encodes (encodes : Encodes v bytes) (same : r.rest = bytes ++ text) : r.peek = .ok v := by
  cases encodes with
  | one low =>
    rw [peek, same]
    exact if_pos low
  | @two a b lead second =>
    have width : leadWidth a.toNat = 2 := if_pos lead
    unfold Trail at second
    rw [peek, same]
    simp only [cons_append, nil_append]
    rw [if_neg (by omega), width, if_neg (by simp)]
    simp only [take_succ_cons, take_zero, Nat.reduceSub]
    rw [trailing_of (by simp [Trail, second]), ok_bind, if_neg]
    · rfl
    · simp only [foldl_cons, foldl_nil]
      omega
  | @three a b c lead second third least valid =>
    have width : leadWidth a.toNat = 3 := by
      rw [leadWidth, if_neg (by omega), if_pos lead]
    unfold Trail at second third
    unfold Scalar at valid
    rw [peek, same]
    simp only [cons_append, nil_append]
    rw [if_neg (by omega), width, if_neg (by simp)]
    simp only [take_succ_cons, take_zero, Nat.reduceSub]
    rw [trailing_of (by simp [Trail, second, third]), ok_bind, if_neg]
    · rfl
    · simp only [foldl_cons, foldl_nil]
      omega
  | @four a b c d lead second third fourth least valid =>
    have width : leadWidth a.toNat = 4 := by
      rw [leadWidth, if_neg (by omega), if_neg (by omega), if_pos lead]
    unfold Trail at second third fourth
    unfold Scalar at valid
    rw [peek, same]
    simp only [cons_append, nil_append]
    rw [if_neg (by omega), width, if_neg (by simp)]
    simp only [take_succ_cons, take_zero, Nat.reduceSub]
    rw [trailing_of (by simp [Trail, second, third, fourth]), ok_bind, if_neg]
    · rfl
    · simp only [foldl_cons, foldl_nil]
      omega

theorem peek_inv (seen : r.peek = .ok v) (more : r.rest ≠ []) :
    ∃ bytes text, r.rest = bytes ++ text ∧ Encodes v bytes := by
  rw [peek] at seen
  cases rest : r.rest with
  | nil => exact absurd rest more
  | cons a tail =>
    rw [rest] at seen
    simp only at seen
    split at seen
    · rename_i low
      cases seen
      exact ⟨[a], tail, rfl, .one low⟩
    · split at seen
      · cases seen
      · rename_i high wide
        obtain ⟨c, done, seen⟩ := bind_ok seen
        split at seen
        · cases seen
        · rename_i valid
          cases seen
          obtain ⟨trails, value⟩ := trailing_ok done
          rw [not_or, Nat.not_lt] at wide
          obtain ⟨some_width, room⟩ := wide
          rcases leadWidth_cases a.toNat some_width with ⟨least, most, width⟩ | ⟨least, most, width⟩ |
            ⟨least, most, width⟩
          · rw [width] at room trails value
            obtain ⟨b, text, rfl⟩ := exists_cons_of_length_pos (l := tail) (by omega)
            have second := trails b (by simp)
            have exact_value : v = a.toNat % 32 * 64 + b.toNat % 64 := by simpa using value
            rw [exact_value]
            exact ⟨[a, b], text, rfl, .two ⟨least, most⟩ second⟩
          · rw [width] at room trails value valid
            obtain ⟨b, tail, rfl⟩ := exists_cons_of_length_pos (l := tail) (by omega)
            rw [length_cons] at room
            obtain ⟨c, text, rfl⟩ := exists_cons_of_length_pos (l := tail) (by omega)
            have second := trails b (by simp)
            have third := trails c (by simp)
            have exact_value : v = (a.toNat % 16 * 64 + b.toNat % 64) * 64 + c.toNat % 64 := by
              simpa using value
            rw [exact_value] at valid ⊢
            refine ⟨[a, b, c], text, rfl, .three ⟨least, most⟩ second third (by omega) ?_⟩
            unfold Scalar
            omega
          · rw [width] at room trails value valid
            obtain ⟨b, tail, rfl⟩ := exists_cons_of_length_pos (l := tail) (by omega)
            rw [length_cons] at room
            obtain ⟨c, tail, rfl⟩ := exists_cons_of_length_pos (l := tail) (by omega)
            rw [length_cons] at room
            obtain ⟨d, text, rfl⟩ := exists_cons_of_length_pos (l := tail) (by omega)
            have second := trails b (by simp)
            have third := trails c (by simp)
            have fourth := trails d (by simp)
            have exact_value : v =
                ((a.toNat % 8 * 64 + b.toNat % 64) * 64 + c.toNat % 64) * 64 + d.toNat % 64 := by
              simpa using value
            rw [exact_value] at valid ⊢
            refine ⟨[a, b, c, d], text, rfl, .four ⟨least, most⟩ second third fourth (by omega) ?_⟩
            unfold Scalar
            omega

theorem span_encodes (encodes : Encodes v bytes) : span v = bytes.length := by
  unfold span
  cases encodes with
  | one low => rw [if_pos low]; rfl
  | two lead second =>
    unfold Trail at second
    rw [if_neg (by omega), if_pos (by omega)]
    rfl
  | three lead second third least valid =>
    unfold Trail at second third
    rw [if_neg (by omega), if_neg (by omega), if_pos (by omega)]
    rfl
  | four lead second third fourth least valid =>
    rw [if_neg (by omega), if_neg (by omega), if_neg (by omega)]
    rfl

theorem after_encodes (encodes : Encodes v bytes) (same : r.rest = bytes ++ text) :
    r.after v = { rest := text, position := r.position + bytes.length } := by
  rw [after, span_encodes encodes, same, drop_left]

theorem takeAll_end (ended : r.rest = []) : r.takeAll = .ok [] := by
  have seen : r.peek = .ok eof := by
    rw [peek, ended]
  rw [takeAll]
  split
  · rename_i failed
    rw [seen] at failed
    cases failed
  · rename_i found
    rw [seen] at found
    cases found
    rfl

theorem takeAll_encodes (encodes : Encodes v bytes) (same : r.rest = bytes ++ text) : r.takeAll =
      (takeAll { rest := text, position := r.position + bytes.length }).map (v :: ·) := by
  have seen := peek_encodes encodes same
  rw [takeAll]
  split
  · rename_i failed
    rw [seen] at failed
    cases failed
  · rename_i found
    rw [seen] at found
    cases found
    rw [dif_neg (show v ≠ eof from encodes.value_lt.ne), after_encodes encodes same]

theorem takeAll_iff (r : Reader) (cs : List Nat) : r.takeAll = .ok cs ↔
    ∃ chars : List Char, cs = chars.map (fun c => c.val.toNat) ∧ r.rest = chars.flatMap String.utf8EncodeChar := by
  constructor
  · intro taken
    induction size : r.rest.length using Nat.strongRecOn generalizing r cs with
    | _ size' ih =>
      by_cases ended : r.rest = []
      · rw [takeAll_end ended] at taken
        cases taken
        exact ⟨[], rfl, ended⟩
      · cases seen : r.peek with
        | error e =>
          rw [takeAll] at taken
          split at taken
          · cases taken
          · rename_i found
            rw [seen] at found
            cases found
        | ok v =>
          obtain ⟨bytes, text, same, encodes⟩ := peek_inv seen ended
          rw [takeAll_encodes encodes same] at taken
          have shorter := congrArg List.length same
          have some_bytes := encodes.length_pos
          rw [length_append] at shorter
          cases later : takeAll { rest := text, position := r.position + bytes.length } with
          | error e =>
            rw [later] at taken
            cases taken
          | ok rest =>
            rw [later] at taken
            cases taken
            obtain ⟨chars, rfl, left⟩ := ih text.length (by omega) _ rest later rfl
            obtain ⟨c, rfl, rfl⟩ := char_of_encodes encodes
            refine ⟨c :: chars, rfl, ?_⟩
            rw [same, flatMap_cons]
            exact congrArg _ left
  · rintro ⟨chars, rfl, same⟩
    induction chars generalizing r with
    | nil => exact takeAll_end same
    | cons c chars ih =>
      rw [flatMap_cons] at same
      rw [takeAll_encodes (encodes_char c) same, ih _ rfl]
      rfl

end Reader

/-- The text check of the WebSocket and the characters of the reader accept exactly the
    encodings of characters, and the reader takes those characters. -/
theorem utf8_exact (text : List UInt8) :
    (WebSocket.utf8 text = true ↔ Utf8Text text) ∧
      ((∃ cs, ({ rest := text } : Reader).takeAll = .ok cs) ↔ Utf8Text text) ∧
      ∀ chars : List Char, ({ rest := chars.flatMap String.utf8EncodeChar } : Reader).takeAll =
        .ok (chars.map fun c => c.val.toNat) := by
  refine ⟨WebSocket.utf8_iff text, ?_, ?_⟩
  · constructor
    · rintro ⟨cs, taken⟩
      obtain ⟨chars, -, same⟩ := (Reader.takeAll_iff _ cs).mp taken
      exact ⟨chars, same⟩
    · rintro ⟨chars, same⟩
      exact ⟨_, (Reader.takeAll_iff _ _).mpr ⟨chars, rfl, same⟩⟩
  · intro chars
    exact (Reader.takeAll_iff _ _).mpr ⟨chars, rfl, rfl⟩

end Nxt.Wisp.Text

import Nxt.Lib.Exec

/- Reading and writing byte formats. A writer is the bytes it produces or an error; a reader
   consumes from the front of what is left. `Codes w r a` says that whatever `w` writes, `r` reads
   back as `a`, with anything following; its rules follow the shape of a `do` block. `Yields r P`
   says what a reader can return at all. -/
namespace Nxt.Lib
open List
variable {ε α β σ ι : Type}

abbrev Bytes := List UInt8

abbrev Reader (ε α : Type) := StateT Bytes (Except ε) α

abbrev Writer (ε : Type) := Except ε Bytes

def joined : List (Writer ε) → Except ε Bytes
  | [] => .ok []
  | w :: rest => do
      let xs ← w
      let ys ← joined rest
      .ok (xs ++ ys)

def each (f : α → Except ε Unit) : List α → Except ε Unit
  | [] => .ok ()
  | a :: rest => do
      f a
      each f rest

def mapEach (f : α → Except ε β) : List α → Except ε (List β)
  | [] => .ok []
  | a :: rest => do
      let b ← f a
      .ok (b :: (← mapEach f rest))

def readEach (f : α → Reader ε Unit) : List α → Reader ε Unit
  | [] => pure ()
  | a :: rest => do
      f a
      readEach f rest

def loop (step : σ → Reader ε σ) : Nat → σ → Reader ε σ
  | 0, s => pure s
  | n + 1, s => do loop step n (← step s)

def leftover : Reader ε Nat := do return (← get).length

/-- Little-endian. -/
def u32le (x : UInt32) : Bytes :=
  [UInt8.ofNat x.toNat, UInt8.ofNat (x.toNat / 2 ^ 8), UInt8.ofNat (x.toNat / 2 ^ 16),
   UInt8.ofNat (x.toNat / 2 ^ 24)]

def ofU32le (data : Bytes) : UInt32 :=
  UInt32.ofNat ((data.getD 0 0).toNat + (data.getD 1 0).toNat * 2 ^ 8 +
    (data.getD 2 0).toNat * 2 ^ 16 + (data.getD 3 0).toNat * 2 ^ 24)

theorem ofU32le_u32le (x : UInt32) : ofU32le (u32le x) = x := by
  rw [← UInt32.toNat_inj]
  have bound := x.toNat_lt
  simp only [ofU32le, u32le, getD_cons_zero, getD_cons_succ, UInt8.toNat_ofNat', UInt32.toNat_ofNat']
  omega

theorem each_ok {f : α → Except ε Unit} {xs : List α} : each f xs = .ok () ↔ ∀ x ∈ xs, f x = .ok () := by
  induction xs with
  | nil => simp [each]
  | cons x rest ih =>
    constructor
    · intro done
      obtain ⟨_, first, tail⟩ := bind_ok done
      intro y held
      rcases mem_cons.mp held with rfl | later
      · exact first
      · exact ih.mp tail y later
    · intro all
      have first := all x mem_cons_self
      have tail := ih.mpr fun y held => all y (mem_cons_of_mem _ held)
      simp only [each, first, tail]
      rfl

theorem mapEach_ok {f : α → Except ε β} {g : α → β} {xs : List α} (same : ∀ x ∈ xs, f x = .ok (g x)) :
    mapEach f xs = .ok (xs.map g) := by
  induction xs with
  | nil => rfl
  | cons x rest ih =>
    rw [mapEach, same x mem_cons_self, ih fun y held => same y (mem_cons_of_mem _ held)]
    rfl

theorem mapEach_forall₂ {f : α → Except ε β} {xs : List α} {ys : List β}
    (done : mapEach f xs = .ok ys) : List.Forall₂ (fun x y => f x = .ok y) xs ys := by
  induction xs generalizing ys with
  | nil =>
    cases done
    exact .nil
  | cons x rest ih =>
    obtain ⟨y, first, done⟩ := bind_ok done
    obtain ⟨zs, later, done⟩ := bind_ok done
    cases done
    exact .cons first (ih later)

def Parses (r : Reader ε α) (bytes : Bytes) (a : α) : Prop :=
  ∀ rest, r (bytes ++ rest) = .ok (a, rest)

def Codes (w : Writer ε) (r : Reader ε α) (a : α) : Prop :=
  ∀ bytes, w = .ok bytes → Parses r bytes a

structure Yields (r : Reader ε α) (P : α → Prop) : Prop where
  holds : ∀ s a s', r s = .ok (a, s') → P a

section Codes
variable {w : Writer ε} {ws : List (Writer ε)} {r : Reader ε α} {f : α → Reader ε β} {a : α} {b : β}

theorem parses_bind {xs ys : Bytes} (first : Parses r xs a) (next : Parses (f a) ys b) :
    Parses (r >>= f) (xs ++ ys) b := by
  intro rest
  have step : (r >>= f) ((xs ++ ys) ++ rest) = (r (xs ++ (ys ++ rest)) >>= fun p => f p.1 p.2) := by
    rw [append_assoc]
    rfl
  rw [step, first (ys ++ rest)]
  exact next rest

theorem codes_pure (a : α) : Codes (joined ([] : List (Writer ε))) (pure a) a := by
  intro bytes written rest
  cases written
  rfl

theorem codes_bind (first : Codes w r a) (next : Codes (joined ws) (f a) b) : Codes (joined (w :: ws)) (r >>= f) b := by
  intro bytes written
  obtain ⟨xs, head, written⟩ := bind_ok written
  obtain ⟨ys, tail, written⟩ := bind_ok written
  cases written
  exact parses_bind (first xs head) (next ys tail)

theorem codes_last (first : Codes w r a) : Codes (joined [w]) r a := by
  have ends : Codes (joined []) (pure a : Reader ε α) a := codes_pure a
  have whole := codes_bind first ends
  rwa [bind_pure] at whole

theorem codes_check {w : Writer ε} (silent : ∀ s, r s = .ok (a, s)) (next : Codes w (f a) b) : Codes w (r >>= f) b := by
  intro bytes written rest
  have step : (r >>= f) (bytes ++ rest) = (r (bytes ++ rest) >>= fun p => f p.1 p.2) := rfl
  rw [step, silent]
  exact next bytes written rest

theorem codes_leftover {w : Writer ε} {f : Nat → Reader ε β}
    (next : ∀ bytes n, w = .ok bytes → bytes.length ≤ n → Codes w (f n) b) : Codes w (leftover >>= f) b := by
  intro bytes written rest
  have long : bytes.length ≤ (bytes ++ rest).length := by
    rw [length_append]
    exact Nat.le_add_right _ _
  exact next bytes _ written long bytes written rest

theorem joined_single {bytes : Bytes} (written : joined [w] = .ok bytes) : w = .ok bytes := by
  obtain ⟨xs, head, written⟩ := bind_ok written
  cases written
  rw [append_nil]
  exact head

/-- A loop reads the items in order; its state is described after every beginning of them. -/
theorem codes_loop {items : List ι} {write : ι → Writer ε} {step : σ → Reader ε σ} (state : List ι → σ)
    (once : ∀ before x after, items = before ++ x :: after →
      Codes (write x) (step (state before)) (state (before ++ [x]))) :
    Codes (joined (items.map write)) (loop step items.length (state [])) (state items) := by
  suffices general : ∀ rest before, items = before ++ rest →
      Codes (joined (rest.map write)) (loop step rest.length (state before)) (state items) by
    exact general items [] rfl
  intro rest
  induction rest with
  | nil =>
    intro before split
    rw [append_nil] at split
    subst split
    exact codes_pure _
  | cons x rest ih =>
    intro before split
    have later : items = (before ++ [x]) ++ rest := by
      rw [split, append_assoc]
      rfl
    exact codes_bind (once before x rest split) (ih _ later)

theorem codes_then {w : Writer ε} (codes : Codes w r a) (silent : ∀ s, f a s = .ok (b, s)) : Codes w (r >>= f) b := by
  intro bytes written rest
  have step : (r >>= f) (bytes ++ rest) = (r (bytes ++ rest) >>= fun p => f p.1 p.2) := rfl
  rw [step, codes bytes written rest]
  exact silent rest

theorem codes_map {w : Writer ε} (g : α → β) (codes : Codes w r a) :
    Codes w (r >>= fun a => pure (g a)) (g a) := codes_then codes fun _ => rfl

theorem codes_each {items : List ι} {write : ι → Writer ε} {read : ι → Reader ε Unit}
    (once : ∀ x ∈ items, Codes (write x) (read x) ()) : Codes (joined (items.map write)) (readEach read items) () := by
  induction items with
  | nil => exact codes_pure ()
  | cons x rest ih =>
    have first := once x mem_cons_self
    have later := ih fun y held => once y (mem_cons_of_mem _ held)
    exact codes_bind first later

theorem codes_congr {w v : Writer ε} {a' : α} (same : w = v) (value : a' = a) (codes : Codes v r a') : Codes w r a := by
  subst same
  subst value
  exact codes

end Codes

section Yields
variable {r : Reader ε α} {f : α → Reader ε β} {P : α → Prop} {Q : β → Prop}

theorem yields_pure {a : α} (holds : P a) : Yields (pure a : Reader ε α) P := by
  constructor
  intro s b s' done
  cases done
  exact holds

theorem yields_bind (first : Yields r P) (next : ∀ a, P a → Yields (f a) Q) : Yields (r >>= f) Q := by
  constructor
  intro s b s' done
  have step : (r s >>= fun p => f p.1 p.2) = .ok (b, s') := done
  obtain ⟨p, read, rest⟩ := bind_ok step
  exact (next p.1 (first.holds s p.1 p.2 read)).holds p.2 b s' rest

theorem yields_any : Yields r fun _ => True := ⟨fun _ _ _ _ => trivial⟩

theorem yields_loop (step : σ → Reader ε σ) (keep : Nat → σ → Prop)
    (once : ∀ i s, keep i s → Yields (step s) (keep (i + 1))) (n : Nat) {i : Nat} {s : σ}
    (start : keep i s) : Yields (loop step n s) (keep (i + n)) := by
  induction n generalizing i s with
  | zero => exact yields_pure start
  | succ n ih =>
    have shift : i + (n + 1) = i + 1 + n := by omega
    rw [shift]
    exact yields_bind (once i s start) fun _ kept => ih kept

theorem yields_mono {P' : α → Prop} (holds : Yields r P) (weaker : ∀ a, P a → P' a) :
    Yields r P' := ⟨fun s a s' done => weaker a (holds.holds s a s' done)⟩

end Yields

def Sized (w : Writer ε) (n : Nat) : Prop := ∃ bytes, w = .ok bytes ∧ bytes.length = n

section Sized
variable {w : Writer ε} {ws : List (Writer ε)} {n k : Nat}

theorem sized_eq (sized : Sized w n) (same : n = k) : Sized w k := same ▸ sized

theorem sized_nil : Sized (joined ([] : List (Writer ε))) 0 := ⟨[], rfl, rfl⟩

theorem sized_cons (first : Sized w n) (rest : Sized (joined ws) k) : Sized (joined (w :: ws)) (n + k) := by
  obtain ⟨xs, wrote, size⟩ := first
  obtain ⟨ys, follows, others⟩ := rest
  refine ⟨xs ++ ys, ?_, ?_⟩
  · rw [joined, wrote, follows]
    rfl
  · rw [length_append, size, others]

theorem sized_map {f : ι → Writer ε} {size : ι → Nat} (xs : List ι)
    (each : ∀ x ∈ xs, Sized (f x) (size x)) : Sized (joined (xs.map f)) (xs.map size).sum := by
  induction xs with
  | nil => exact sized_nil
  | cons x rest ih =>
    rw [map_cons, map_cons, sum_cons]
    apply sized_cons (each x mem_cons_self)
    exact ih fun y held => each y (mem_cons_of_mem _ held)

end Sized

end Nxt.Lib

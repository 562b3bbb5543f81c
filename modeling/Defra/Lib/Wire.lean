import Mathlib.Data.Nat.Basic
import Mathlib.Tactic.Ring

/-! # Bytes on the wire

Numbers of a fixed width as big-endian bytes, and readers that take a value from the front of a byte string. A reader `Reads` a
value from what a writer wrote when it returns it whatever follows, and leaves what follows. -/

namespace Wire
open List

/-! ### Big-endian numbers -/

/-- A number as `width` bytes, the highest first. -/
def toBe : Nat → Nat → List UInt8
  | 0, _ => []
  | width + 1, n => UInt8.ofNat (n / 256 ^ width) :: toBe width n

variable (width n : Nat) (bytes : List UInt8)

def ofBe : Nat := bytes.foldl (fun n byte => n * 256 + byte.toNat) 0

@[simp] theorem length_toBe : (toBe width n).length = width := by
  induction width with
  | zero => rfl
  | succ width ih => rw [toBe, length_cons, ih]

theorem foldl_be (n : Nat) :
    bytes.foldl (fun n byte => n * 256 + byte.toNat) n = n * 256 ^ bytes.length + ofBe bytes := by
  unfold ofBe
  induction bytes generalizing n with
  | nil => simp
  | cons byte bytes ih =>
    rw [foldl_cons, foldl_cons, ih, ih (0 * 256 + byte.toNat), length_cons]
    ring

theorem ofBe_cons (byte : UInt8) (bytes : List UInt8) :
    ofBe (byte :: bytes) = byte.toNat * 256 ^ bytes.length + ofBe bytes := by
  rw [ofBe, foldl_cons, foldl_be, Nat.zero_add]

theorem ofBe_toBe_mod : ofBe (toBe width n) = n % 256 ^ width := by
  induction width with
  | zero => simp [toBe, ofBe, Nat.mod_one]
  | succ width ih =>
    have hbyte : (UInt8.ofNat (n / 256 ^ width)).toNat = n / 256 ^ width % 256 := by simp
    rw [toBe, ofBe_cons, ih, length_toBe, hbyte, pow_succ, Nat.mod_mul, Nat.mul_comm, Nat.add_comm]

theorem ofBe_toBe {width n : Nat} (h : n < 256 ^ width) : ofBe (toBe width n) = n := by
  rw [ofBe_toBe_mod, Nat.mod_eq_of_lt h]

theorem ofBe_lt : ofBe bytes < 256 ^ bytes.length := by
  induction bytes with
  | nil => simp [ofBe]
  | cons byte bytes ih =>
    rw [ofBe_cons, length_cons]
    have hb : byte.toNat ≤ 255 := Nat.le_of_lt_succ byte.toNat_lt
    calc byte.toNat * 256 ^ bytes.length + ofBe bytes
        < byte.toNat * 256 ^ bytes.length + 256 ^ bytes.length := by omega
      _ ≤ 255 * 256 ^ bytes.length + 256 ^ bytes.length := Nat.add_le_add_right (Nat.mul_le_mul_right _ hb) _
      _ = 256 ^ bytes.length * 256 := by ring

theorem toBe_ofBe : toBe bytes.length (ofBe bytes) = bytes := by
  induction bytes with
  | nil => rfl
  | cons byte bytes ih =>
    have hlt := ofBe_lt bytes
    have hpos : 0 < 256 ^ bytes.length := Nat.pow_pos (by decide)
    have htail : ∀ width k n, width ≤ k → toBe width (n * 256 ^ k + ofBe bytes) = toBe width (ofBe bytes) := by
      intro width k n hk
      induction width with
      | zero => rfl
      | succ width ihw =>
        rw [toBe, ihw (by omega)]
        obtain ⟨d, rfl⟩ := Nat.exists_eq_add_of_le hk
        have : n * 256 ^ (width + 1 + d) = 256 ^ width * (256 * (n * 256 ^ d)) := by ring
        rw [this, Nat.add_comm, Nat.add_mul_div_left _ _ (Nat.pow_pos (by decide))]
        congr 1
        simp
    rw [length_cons, toBe, ofBe_cons, htail _ _ _ (le_refl _), ih]
    rw [Nat.add_comm, Nat.add_mul_div_right _ _ hpos, Nat.div_eq_of_lt hlt, Nat.zero_add, UInt8.ofNat_toNat]

end Wire

/-! ### Readers -/

/-- A reader returns a value and what it left of the input, or fails. -/
abbrev Reader (α : Type) := StateT (List UInt8) Option α

namespace Reader
variable {α γ : Type} {reader : Reader α} {next : α → Reader γ} {input rest bytes : List UInt8} {a : α}

def fail : Reader α := fun _ => none

def lift (a : Option α) : Reader α := fun input => a.map fun a => (a, input)

def byte : Reader UInt8
  | [] => none
  | byte :: rest => some (byte, rest)

def take (n : Nat) : Reader (List UInt8) := fun input =>
  if n ≤ input.length then some (input.take n, input.drop n) else none

def be (width : Nat) : Reader Nat := do
  return Wire.ofBe (← take width)

def times (count : Nat) (reader : Reader α) : Reader (List α) :=
  match count with
  | 0 => pure []
  | count + 1 => do
    let a ← reader
    let rest ← times count reader
    return a :: rest

/-- The reader takes all of the input. -/
def all (reader : Reader α) (input : List UInt8) : Option α :=
  (reader input).bind fun (a, rest) => if rest.isEmpty then some a else none

/-! ### Reading what was written -/

/-- `reader` takes `a` from `bytes`, whatever follows, and leaves what follows. -/
def Reads (reader : Reader α) (bytes : List UInt8) (a : α) : Prop := ∀ rest, reader (bytes ++ rest) = some (a, rest)

theorem bind_eq_some {c : γ} : (reader >>= next) input = some (c, rest) ↔
      ∃ a middle, reader input = some (a, middle) ∧ next a middle = some (c, rest) := by
  change (reader input).bind (fun p => next p.1 p.2) = some (c, rest) ↔ _
  rw [Option.bind_eq_some_iff]
  exact ⟨fun ⟨⟨a, middle⟩, h⟩ => ⟨a, middle, h⟩, fun ⟨a, middle, h⟩ => ⟨⟨a, middle⟩, h⟩⟩

theorem pure_eq_some {c : α} : (Pure.pure a : Reader α) input = some (c, rest) ↔ a = c ∧ input = rest := by
  change some (a, input) = some (c, rest) ↔ _
  rw [Option.some.injEq, Prod.mk.injEq]

theorem all_eq_some : all reader input = some a ↔ reader input = some (a, []) := by
  rw [all, Option.bind_eq_some_iff]
  constructor
  · rintro ⟨⟨c, rest⟩, hread, hr⟩
    simp only [Option.ite_none_right_eq_some, List.isEmpty_iff, Option.some.injEq] at hr
    rw [hread, hr.1, hr.2]
  · exact fun h => ⟨(a, []), h, rfl⟩

theorem Reads.pure (a : α) : Reads (Pure.pure a) [] a := fun _ => rfl

theorem Reads.lift {o : Option α} (h : o = some a) : Reads (lift o) [] a := fun rest => by
  rw [h]
  rfl

theorem Reads.bind {more : List UInt8} {c : γ}
    (h : Reads reader bytes a) (hn : Reads (next a) more c) : Reads (reader >>= next) (bytes ++ more) c := by
  intro rest
  rw [List.append_assoc]
  change (reader (bytes ++ (more ++ rest))).bind (fun p => next p.1 p.2) = some (c, rest)
  rw [h (more ++ rest)]
  exact hn rest

theorem Reads.bind_nil {c : γ}
    (h : Reads reader bytes a) (hn : Reads (next a) [] c) : Reads (reader >>= next) bytes c := by
  have := h.bind hn
  rwa [List.append_nil] at this

theorem Reads.map (f : α → γ) (h : Reads reader bytes a) :
    Reads (reader >>= fun a => Pure.pure (f a)) bytes (f a) := h.bind_nil (Reads.pure (f a))

/-- What is read as a value is not the start of anything else that is. -/
theorem Reads.prefix_free {p q : List UInt8} {b : α} (hp : Reads reader p a) (hq : Reads reader q b)
    (h : p <+: q) : p = q := by
  obtain ⟨rest, rfl⟩ := h
  have := (hp rest).symm.trans (List.append_nil (p ++ rest) ▸ hq [])
  cases this
  exact (List.append_nil p).symm

theorem Reads.byte (b : UInt8) : Reads byte [b] b := fun _ => rfl

theorem Reads.take (bytes : List UInt8) : Reads (take bytes.length) bytes bytes := by
  intro rest
  rw [Reader.take, if_pos (by simp), List.take_left, List.drop_left]

theorem Reads.be {width n : Nat} (h : n < 256 ^ width) : Reads (be width) (Wire.toBe width n) n := by
  have ht := Reads.take (Wire.toBe width n)
  rw [Wire.length_toBe] at ht
  refine ht.bind_nil ?_
  rw [Wire.ofBe_toBe h]
  exact Reads.pure n

theorem Reads.all (h : Reads reader bytes a) : all reader bytes = some a := by
  have := h []
  rw [List.append_nil] at this
  rw [Reader.all, this]
  rfl

theorem lift_eq_some {o : Option α} : lift o input = some (a, rest) ↔ o = some a ∧ input = rest := by
  rw [lift, Option.map_eq_some_iff]
  constructor
  · rintro ⟨b, hb, heq⟩
    cases heq
    exact ⟨hb, rfl⟩
  · rintro ⟨hb, rfl⟩
    exact ⟨a, hb, rfl⟩

theorem byte_eq_some {b : UInt8} : byte input = some (b, rest) ↔ input = b :: rest := by
  cases input with
  | nil => exact ⟨fun h => (by cases h), fun h => (by cases h)⟩
  | cons b' rest' => rw [byte, Option.some.injEq, Prod.mk.injEq, List.cons.injEq]

theorem take_eq_some {n : Nat} : take n input = some (bytes, rest) ↔ input = bytes ++ rest ∧ bytes.length = n := by
  rw [take, Option.ite_none_right_eq_some, Option.some.injEq, Prod.mk.injEq]
  constructor
  · rintro ⟨hle, rfl, rfl⟩
    exact ⟨(List.take_append_drop n input).symm, List.length_take_of_le hle⟩
  · rintro ⟨rfl, rfl⟩
    exact ⟨by simp, List.take_left, List.drop_left⟩

theorem be_eq_some {width n : Nat} (h : be width input = some (n, rest)) :
    input = Wire.toBe width n ++ rest ∧ n < 256 ^ width := by
  obtain ⟨bytes, middle, htake, hpure⟩ := bind_eq_some.mp h
  obtain ⟨rfl, rfl⟩ := take_eq_some.mp htake
  obtain ⟨rfl, rfl⟩ := pure_eq_some.mp hpure
  exact ⟨by rw [Wire.toBe_ofBe], Wire.ofBe_lt bytes⟩

/-! ### Readers that look at nothing after what they take -/

/-- A reader looks at nothing after what it takes. -/
def Local (reader : Reader α) : Prop :=
  ∀ input a rest, reader input = some (a, rest) → ∃ bytes, input = bytes ++ rest ∧ Reads reader bytes a

theorem Local.pure (a : α) : Local (Pure.pure a) := by
  intro input b rest h
  obtain ⟨rfl, rfl⟩ := pure_eq_some.mp h
  exact ⟨[], rfl, Reads.pure a⟩

theorem Local.byte : Local byte := fun _ b _ h => ⟨[b], byte_eq_some.mp h, Reads.byte b⟩

theorem Local.take (n : Nat) : Local (take n) := by
  intro input bytes rest h
  obtain ⟨rfl, rfl⟩ := take_eq_some.mp h
  exact ⟨bytes, rfl, Reads.take bytes⟩

theorem Local.bind (h : Local reader) (hn : ∀ a, Local (next a)) : Local (reader >>= next) := by
  intro input c rest hread
  obtain ⟨a, middle, hfirst, hthen⟩ := bind_eq_some.mp hread
  obtain ⟨bytes, rfl, hb⟩ := h _ _ _ hfirst
  obtain ⟨more, rfl, hm⟩ := hn a _ _ _ hthen
  exact ⟨bytes ++ more, (List.append_assoc ..).symm, hb.bind hm⟩

theorem Reads.cut_short {p q : List UInt8} (h : Reads reader q a) (hlocal : Local reader) (hp : p <+: q) (hne : p ≠ q) :
    reader p = none := by
  cases hr : reader p with
  | none => rfl
  | some read =>
    -- what it took of `p` would be all of `q`
    obtain ⟨bytes, hb, hreads⟩ := hlocal _ _ _ hr
    have hfront : bytes <+: p := hb ▸ List.prefix_append ..
    have ha := hreads.prefix_free h (hfront.trans hp)
    exact absurd (hp.eq_of_length_le (ha ▸ hfront.length_le)) hne

end Reader

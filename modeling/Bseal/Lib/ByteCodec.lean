import Mathlib.Data.Vector.Basic
import Mathlib.Tactic.Ring

/-! Little-endian words and sequential decoders over byte lists. A decoder is a
state transformer on the bytes that are still unread; every reader below comes
with one equation saying which inputs it accepts, and that equation serves both
directions of a round trip. -/
namespace ByteCodec

/-- The `w` low bytes of `n`, least significant first. -/
def toLE : Nat → Nat → List UInt8
  | 0, _ => []
  | w + 1, n => UInt8.ofNat n :: toLE w (n / 256)

def ofLE : List UInt8 → Nat
  | [] => 0
  | b :: bs => b.toNat + 256 * ofLE bs

@[simp] theorem toLE_length (w n : Nat) : (toLE w n).length = w := by
  induction w generalizing n with
  | zero => rfl
  | succ w ih => simp [toLE, ih]

theorem ofLE_lt (bs : List UInt8) : ofLE bs < 256 ^ bs.length := by
  induction bs with
  | nil => simp [ofLE]
  | cons b bs ih =>
    have hb := b.toNat_lt
    rw [ofLE, List.length_cons, pow_succ]
    omega

theorem ofLE_toLE (w n : Nat) : ofLE (toLE w n) = n % 256 ^ w := by
  induction w generalizing n with
  | zero => simp [toLE, ofLE, Nat.mod_one]
  | succ w ih =>
    have low : (UInt8.ofNat n).toNat = n % 256 := UInt8.toNat_ofNat'
    rw [toLE, ofLE, ih, low, pow_succ', Nat.mod_mul]

theorem ofLE_toLE_of_lt {w n : Nat} (h : n < 256 ^ w) : ofLE (toLE w n) = n := by
  rw [ofLE_toLE, Nat.mod_eq_of_lt h]

theorem toLE_ofLE (bs : List UInt8) : toLE bs.length (ofLE bs) = bs := by
  induction bs with
  | nil => rfl
  | cons b bs ih =>
    have hb := b.toNat_lt
    have low : UInt8.ofNat (b.toNat + 256 * ofLE bs) = b := by
      apply UInt8.toNat_inj.mp
      rw [UInt8.toNat_ofNat']
      omega
    have high : (b.toNat + 256 * ofLE bs) / 256 = ofLE bs := by omega
    rw [List.length_cons, ofLE, toLE, low, high, ih]

theorem toLE_ofLE_of_length {w : Nat} {bs : List UInt8} (h : bs.length = w) :
    toLE w (ofLE bs) = bs := by
  subst h
  exact toLE_ofLE bs

theorem eq_toLE_iff {w n : Nat} {bs : List UInt8} (hn : n < 256 ^ w) :
    bs.length = w ∧ ofLE bs = n ↔ bs = toLE w n := by
  constructor
  · rintro ⟨rfl, rfl⟩
    exact (toLE_ofLE bs).symm
  · rintro rfl
    exact ⟨toLE_length w n, ofLE_toLE_of_lt hn⟩

section Decoders
variable {ε α β : Type}

abbrev Decoder (ε : Type) := StateT (List UInt8) (Except ε)

theorem bind_run_ok (x : Decoder ε α) (f : α → Decoder ε β) (s : List UInt8)
    (r : β × List UInt8) :
    (x >>= f).run s = .ok r ↔ ∃ a t, x.run s = .ok (a, t) ∧ (f a).run t = .ok r := by
  rw [StateT.run_bind]
  cases h : x.run s with
  | error e => simp [bind, Except.bind]
  | ok p =>
    obtain ⟨a, t⟩ := p
    simp [bind, Except.bind]

theorem pure_run_ok (a b : α) (s t : List UInt8) :
    (pure a : Decoder ε α).run s = .ok (b, t) ↔ a = b ∧ s = t := by
  rw [StateT.run_pure]
  simp [pure, Except.pure]

def takeBytes (e : ε) (n : Nat) : Decoder ε (List UInt8) := fun s =>
  if n ≤ s.length then .ok (s.take n, s.drop n) else .error e

theorem takeBytes_run_ok (e : ε) (n : Nat) (s a t : List UInt8) :
    (takeBytes e n).run s = .ok (a, t) ↔ a ++ t = s ∧ a.length = n := by
  simp only [takeBytes, StateT.run]
  constructor
  · split
    · rintro h
      cases h
      exact ⟨List.take_append_drop n s, by simpa⟩
    · intro h; cases h
  · rintro ⟨rfl, rfl⟩
    simp

def putArray {n : Nat} (v : List.Vector UInt8 n) : List UInt8 := v.toList

@[simp] theorem putArray_length {n : Nat} (v : List.Vector UInt8 n) : (putArray v).length = n :=
  v.toList_length

def takeArray (e : ε) (n : Nat) : Decoder ε (List.Vector UInt8 n) := fun s =>
  if h : n ≤ s.length then .ok (⟨s.take n, by simpa⟩, s.drop n) else .error e

@[simp] theorem takeArray_run_ok (e : ε) (n : Nat) (s t : List UInt8) (v : List.Vector UInt8 n) :
    (takeArray e n).run s = .ok (v, t) ↔ putArray v ++ t = s := by
  obtain ⟨v, hv⟩ := v
  simp only [takeArray, putArray, StateT.run, List.Vector.toList]
  constructor
  · split
    · intro h
      cases h
      exact List.take_append_drop n s
    · intro h; cases h
  · rintro rfl
    subst hv
    simp

def takeWord (e : ε) (w : Nat) : Decoder ε Nat := do
  let bs ← takeBytes e w
  pure (ofLE bs)

theorem takeWord_run_ok (e : ε) (w n : Nat) (s t : List UInt8) :
    (takeWord e w).run s = .ok (n, t) ↔ n < 256 ^ w ∧ toLE w n ++ t = s := by
  simp only [takeWord, bind_run_ok, takeBytes_run_ok, pure_run_ok]
  constructor
  · rintro ⟨bs, u, ⟨rfl, rfl⟩, rfl, rfl⟩
    exact ⟨ofLE_lt bs, by rw [toLE_ofLE]⟩
  · rintro ⟨hn, rfl⟩
    exact ⟨toLE w n, t, ⟨rfl, toLE_length w n⟩, ofLE_toLE_of_lt hn, rfl⟩

def takeU8 (e : ε) : Decoder ε UInt8 := UInt8.ofNat <$> takeWord e 1
def takeU16 (e : ε) : Decoder ε UInt16 := UInt16.ofNat <$> takeWord e 2
def takeU32 (e : ε) : Decoder ε UInt32 := UInt32.ofNat <$> takeWord e 4
def takeU64 (e : ε) : Decoder ε UInt64 := UInt64.ofNat <$> takeWord e 8

def putU8 (x : UInt8) : List UInt8 := toLE 1 x.toNat
def putU16 (x : UInt16) : List UInt8 := toLE 2 x.toNat
def putU32 (x : UInt32) : List UInt8 := toLE 4 x.toNat
def putU64 (x : UInt64) : List UInt8 := toLE 8 x.toNat

@[simp] theorem putU8_length (x : UInt8) : (putU8 x).length = 1 := toLE_length _ _
@[simp] theorem putU16_length (x : UInt16) : (putU16 x).length = 2 := toLE_length _ _
@[simp] theorem putU32_length (x : UInt32) : (putU32 x).length = 4 := toLE_length _ _
@[simp] theorem putU64_length (x : UInt64) : (putU64 x).length = 8 := toLE_length _ _

theorem putU16_injective : Function.Injective putU16 := by
  intro x y same
  have values := congrArg ofLE same
  rw [putU16, putU16, ofLE_toLE_of_lt x.toNat_lt, ofLE_toLE_of_lt y.toNat_lt] at values
  exact UInt16.toNat_inj.mp values

theorem putU32_injective : Function.Injective putU32 := by
  intro x y same
  have values := congrArg ofLE same
  rw [putU32, putU32, ofLE_toLE_of_lt x.toNat_lt, ofLE_toLE_of_lt y.toNat_lt] at values
  exact UInt32.toNat_inj.mp values

theorem putU64_injective : Function.Injective putU64 := by
  intro x y same
  have values := congrArg ofLE same
  rw [putU64, putU64, ofLE_toLE_of_lt x.toNat_lt, ofLE_toLE_of_lt y.toNat_lt] at values
  exact UInt64.toNat_inj.mp values

theorem map_takeWord_run_ok (e : ε) (w : Nat) (wrap : Nat → α) (val : α → Nat)
    (lt : ∀ x, val x < 256 ^ w) (inv : ∀ x, wrap (val x) = x)
    (inv' : ∀ n < 256 ^ w, val (wrap n) = n) (x : α) (s t : List UInt8) :
    (wrap <$> takeWord e w).run s = .ok (x, t) ↔ toLE w (val x) ++ t = s := by
  rw [← bind_pure_comp, bind_run_ok]
  simp only [takeWord_run_ok, pure_run_ok]
  constructor
  · rintro ⟨n, u, ⟨hn, rfl⟩, rfl, rfl⟩
    rw [inv' n hn]
  · rintro rfl
    exact ⟨val x, t, ⟨lt x, rfl⟩, inv x, rfl⟩

@[simp] theorem takeU8_run_ok (e : ε) (x : UInt8) (s t : List UInt8) :
    (takeU8 e).run s = .ok (x, t) ↔ putU8 x ++ t = s :=
  map_takeWord_run_ok e 1 _ UInt8.toNat UInt8.toNat_lt (fun _ => UInt8.ofNat_toNat)
    (fun _ hn => UInt8.toNat_ofNat_of_lt' hn) x s t

@[simp] theorem takeU16_run_ok (e : ε) (x : UInt16) (s t : List UInt8) :
    (takeU16 e).run s = .ok (x, t) ↔ putU16 x ++ t = s :=
  map_takeWord_run_ok e 2 _ UInt16.toNat UInt16.toNat_lt (fun _ => UInt16.ofNat_toNat)
    (fun _ hn => UInt16.toNat_ofNat_of_lt' hn) x s t

@[simp] theorem takeU32_run_ok (e : ε) (x : UInt32) (s t : List UInt8) :
    (takeU32 e).run s = .ok (x, t) ↔ putU32 x ++ t = s :=
  map_takeWord_run_ok e 4 _ UInt32.toNat UInt32.toNat_lt (fun _ => UInt32.ofNat_toNat)
    (fun _ hn => UInt32.toNat_ofNat_of_lt' hn) x s t

@[simp] theorem takeU64_run_ok (e : ε) (x : UInt64) (s t : List UInt8) :
    (takeU64 e).run s = .ok (x, t) ↔ putU64 x ++ t = s :=
  map_takeWord_run_ok e 8 _ UInt64.toNat UInt64.toNat_lt (fun _ => UInt64.ofNat_toNat)
    (fun _ hn => UInt64.toNat_ofNat_of_lt' hn) x s t

/-- A signed word travels as its two's complement. -/
def takeI64 (e : ε) : Decoder ε Int64 := UInt64.toInt64 <$> takeU64 e
def putI64 (x : Int64) : List UInt8 := putU64 x.toUInt64

@[simp] theorem takeI64_run_ok (e : ε) (x : Int64) (s t : List UInt8) :
    (takeI64 e).run s = .ok (x, t) ↔ putI64 x ++ t = s := by
  unfold takeI64 putI64
  rw [← bind_pure_comp, bind_run_ok]
  simp only [takeU64_run_ok, pure_run_ok]
  constructor
  · rintro ⟨u, _, rfl, rfl, rfl⟩
    rw [UInt64.toUInt64_toInt64]
  · rintro rfl
    exact ⟨x.toUInt64, t, rfl, Int64.toInt64_toUInt64 x, rfl⟩

/-- A block of bytes behind its own `w`-byte length. -/
def takeBlock (e : ε) (w : Nat) : Decoder ε (List UInt8) := do
  let n ← takeWord e w
  takeBytes e n

def putBlock (w : Nat) (v : List UInt8) : List UInt8 := toLE w v.length ++ v

@[simp] theorem takeBlock_run_ok (e : ε) (w : Nat) (v s t : List UInt8) :
    (takeBlock e w).run s = .ok (v, t) ↔ v.length < 256 ^ w ∧ putBlock w v ++ t = s := by
  unfold takeBlock putBlock
  simp only [bind_run_ok, takeWord_run_ok, takeBytes_run_ok, List.append_assoc]
  constructor
  · rintro ⟨n, _, ⟨hn, rfl⟩, rfl, rfl⟩
    exact ⟨hn, rfl⟩
  · rintro ⟨hn, rfl⟩
    exact ⟨v.length, v ++ t, ⟨hn, rfl⟩, rfl, rfl⟩

/-- An optional value behind a flag byte that must be `0` or `1`. -/
def takeOption (e flag : ε) (x : Decoder ε α) : Decoder ε (Option α) := do
  let present ← takeU8 e
  if present > 1 then throw flag
  else if present = 1 then some <$> x
  else pure none

def putOption (put : α → List UInt8) : Option α → List UInt8
  | none => putU8 0
  | some a => putU8 1 ++ put a

theorem takeOption_run_ok (e flag : ε) {x : Decoder ε α} {put : α → List UInt8}
    (law : ∀ a s t, x.run s = .ok (a, t) ↔ put a ++ t = s) (o : Option α) (s t : List UInt8) :
    (takeOption e flag x).run s = .ok (o, t) ↔ putOption put o ++ t = s := by
  unfold takeOption
  simp only [bind_run_ok, takeU8_run_ok]
  constructor
  · rintro ⟨present, u, rfl, decoded⟩
    split at decoded
    · cases decoded
    · split at decoded
      · rename_i one
        subst one
        rw [← bind_pure_comp, bind_run_ok] at decoded
        obtain ⟨a, _, ha, rest⟩ := decoded
        obtain ⟨rfl, rfl⟩ := (pure_run_ok _ _ _ _).mp rest
        rw [← (law _ _ _).mp ha, putOption, List.append_assoc]
      · obtain ⟨rfl, rfl⟩ := (pure_run_ok _ _ _ _).mp decoded
        rename_i small other
        have zero : present = 0 := by
          rw [gt_iff_lt, UInt8.lt_iff_toNat_lt] at small
          rw [← UInt8.toNat_inj] at other ⊢
          have one : (1 : UInt8).toNat = 1 := rfl
          have none : (0 : UInt8).toNat = 0 := rfl
          omega
        rw [zero, putOption]
  · rintro rfl
    cases o with
    | none => exact ⟨0, t, rfl, (pure_run_ok _ _ _ _).mpr ⟨rfl, rfl⟩⟩
    | some a =>
      refine ⟨1, put a ++ t, (List.append_assoc _ _ _).symm, ?_⟩
      rw [if_neg (by decide), if_pos rfl, ← bind_pure_comp, bind_run_ok]
      exact ⟨a, t, (law _ _ _).mpr rfl, (pure_run_ok _ _ _ _).mpr ⟨rfl, rfl⟩⟩

def rejectIf (c : Prop) [Decidable c] (e : ε) : Decoder ε Unit :=
  if c then throw e else pure ()

@[simp] theorem rejectIf_run_ok (c : Prop) [Decidable c] (e : ε) (u : Unit) (s t : List UInt8) :
    (rejectIf c e).run s = .ok (u, t) ↔ ¬c ∧ s = t := by
  unfold rejectIf
  split
  · simp_all [throw, throwThe, MonadExceptOf.throw, StateT.run, StateT.lift, bind, Except.bind]
  · rename_i hc
    rw [pure_run_ok]
    simp [hc]

theorem rejectIf_bind_run_ok (c : Prop) [Decidable c] (e : ε) (f : Unit → Decoder ε β)
    (s : List UInt8) (r : β × List UInt8) :
    (rejectIf c e >>= f).run s = .ok r ↔ ¬c ∧ (f ()).run s = .ok r := by
  simp only [bind_run_ok, rejectIf_run_ok]
  constructor
  · rintro ⟨_, _, ⟨hc, rfl⟩, h⟩
    exact ⟨hc, h⟩
  · rintro ⟨hc, h⟩
    exact ⟨(), s, ⟨hc, rfl⟩, h⟩

/-- Decode a record of `n` bytes from the front of `bytes`. -/
def decodeFront (e : ε) (n : Nat) (read : Decoder ε α) (bytes : List UInt8) : Except ε α :=
  if bytes.length < n then .error e else Prod.fst <$> read.run (bytes.take n)

/-- When the reader accepts exactly the encodings of values with `P`, so does `decodeFront`. -/
theorem decodeFront_ok {e : ε} {n : Nat} {read : Decoder ε α} {P : α → Prop}
    {put : α → List UInt8} (len : ∀ a, P a → (put a).length = n)
    (law : ∀ a s t, read.run s = .ok (a, t) ↔ P a ∧ put a ++ t = s) (a : α)
    (bytes : List UInt8) :
    decodeFront e n read bytes = .ok a ↔ P a ∧ ∃ rest, put a ++ rest = bytes := by
  unfold decodeFront
  constructor
  · split
    · intro short; cases short
    · intro decoded
      cases run : read.run (bytes.take n) with
      | error e => rw [run] at decoded; cases decoded
      | ok r =>
        obtain ⟨b, t⟩ := r
        rw [run] at decoded
        obtain rfl : b = a := by simpa [Functor.map, Except.map] using decoded
        obtain ⟨hb, whole⟩ := (law b _ t).mp run
        refine ⟨hb, t ++ bytes.drop n, ?_⟩
        rw [← List.append_assoc, whole, List.take_append_drop]
  · rintro ⟨ha, rest, rfl⟩
    have hn := len a ha
    rw [if_neg (by rw [List.length_append]; omega), List.take_append_of_le_length (by omega),
      List.take_of_length_le (by omega), (law a _ []).mpr ⟨ha, List.append_nil _⟩]
    rfl

end Decoders
end ByteCodec

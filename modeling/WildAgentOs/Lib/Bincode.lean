import WildAgentOs.Lib.LittleEndian

/-!
# Bincode

The default encoding of the `bincode` crate, for the types a record is made of: a byte string
or a text is its length in eight little-endian bytes and its bytes, an option a tag byte and
its content, a record its fields one after the other.  Every reader returns the rest of its
input, and reading an encoding back returns the value (`getBytes_putBytes` and so on), where
the length fits its field.
-/

namespace Bincode

open LittleEndian

/-- The UTF-8 bytes of a text. -/
def utf8 (s : String) : Bytes := s.toUTF8.data.toList

/-- The text of some bytes, if they are UTF-8. -/
def ofUtf8 (bs : Bytes) : Option String := String.fromUTF8? ⟨bs.toArray⟩

@[simp] theorem ofUtf8_utf8 (s : String) : ofUtf8 (utf8 s) = some s := by
  have hbytes : (⟨(utf8 s).toArray⟩ : ByteArray) = s.toByteArray := by
    simp [utf8, String.toUTF8]
  unfold ofUtf8 String.fromUTF8?
  rw [hbytes]
  simp [s.isValidUTF8, String.fromUTF8]

theorem utf8_injective : Function.Injective utf8 := by
  intro s t h
  have hs : ofUtf8 (utf8 s) = ofUtf8 (utf8 t) := congrArg ofUtf8 h
  simpa using hs

/-! ### Byte strings and texts -/

def putBytes (bs : Bytes) : Bytes := leBytes 8 bs.length ++ bs

def getBytes (bs : Bytes) : Option (Bytes × Bytes) := do
  let (len, bs) ← readExact 8 bs
  readExact (ofLe len) bs

@[simp] theorem length_putBytes (bs : Bytes) : (putBytes bs).length = bs.length + 8 := by
  simp [putBytes]
  omega

theorem getBytes_putBytes {bs : Bytes} (h : bs.length < 2 ^ 64) (rest : Bytes) :
    getBytes (putBytes bs ++ rest) = some (bs, rest) := by
  have hlen : ofLe (leBytes 8 bs.length) = bs.length := by
    rw [ofLe_leBytes]
    exact Nat.mod_eq_of_lt (by omega)
  unfold getBytes putBytes
  simp only [List.append_assoc, readExact_leBytes, Option.bind_eq_bind, Option.bind_some, hlen]
  exact readExact_append rfl rest

def putString (s : String) : Bytes := putBytes (utf8 s)

def getString (bs : Bytes) : Option (String × Bytes) := do
  let (text, bs) ← getBytes bs
  let s ← ofUtf8 text
  pure (s, bs)

theorem getString_putString {s : String} (h : (utf8 s).length < 2 ^ 64) (rest : Bytes) :
    getString (putString s ++ rest) = some (s, rest) := by
  unfold getString putString
  rw [getBytes_putBytes h]
  simp

/-! ### Options -/

section
variable {α : Type}

def putOption (put : α → Bytes) : Option α → Bytes
  | none => [0]
  | some a => 1 :: put a

def getOption (get : Bytes → Option (α × Bytes)) : Bytes → Option (Option α × Bytes)
  | [] => none
  | tag :: bs =>
    match tag.toNat with
    | 0 => some (none, bs)
    | 1 => (get bs).map fun r => (some r.1, r.2)
    | _ => none

theorem getOption_putOption {put : α → Bytes} {get : Bytes → Option (α × Bytes)} {rest : Bytes} (o : Option α)
    (h : ∀ a ∈ o, get (put a ++ rest) = some (a, rest)) : getOption get (putOption put o ++ rest) = some (o, rest) := by
  cases o with
  | none => rfl
  | some a =>
    have hget : get (put a ++ rest) = some (a, rest) := h a rfl
    show (get (put a ++ rest)).map (fun r => (some r.1, r.2)) = some (some a, rest)
    rw [hget]
    rfl

end

end Bincode

import Mathlib.Data.List.Sort
import TypedJson.Proofs.Reader.Binary
import TypedJson.Proofs.Schema.RoundTrip

/-! Hashes and their texts. A hash is shown as two digits for each byte, that text in quotes is what
it is encoded as and what it is decoded from, and texts compare as the hashes do. Digits are in
order, so are the pairs of them, and lists of pairs compare at the first pair that differs. -/
namespace TypedJson

namespace Hex

variable {a b : Nat} {digits bytes : List UInt8}

/-- The digits of a byte to the base of sixteen, with a zero before a single one. -/
def padded (byte : UInt8) : List Char := (Nat.toDigits 16 byte.toNat).leftpad 2 '0'

theorem encodeByte_padded (byte : UInt8) : (encodeByte byte).map Char.ofUInt8 = padded byte := by
  revert byte
  exact forall_byte (by decide)

theorem toList_text (bytes : List UInt8) : (text bytes).toList = bytes.flatMap padded := by
  rw [text, encode, String.toList_ofList, List.map_flatMap]
  exact List.flatMap_congr fun byte _ => encodeByte_padded byte

/-- A letter in upper case, and any other byte as it is. -/
def upper (byte : UInt8) : UInt8 := if 0x61 ≤ byte && byte ≤ 0x7a then byte - 0x20 else byte

theorem isDigit_of_lower (same : digits.map lower = encode bytes) :
    ∀ digit ∈ digits, isDigit digit = true := by
  have back : ∀ digit, isDigit (lower digit) = true → isDigit digit = true :=
    forall_byte (by decide)
  intro digit member
  refine back digit (encode_isDigit bytes _ ?_)
  rw [← same]
  exact List.mem_map_of_mem member

theorem lower_encode (bytes : List UInt8) : (encode bytes).map lower = encode bytes := by
  have each : ∀ byte, (encodeByte byte).map lower = encodeByte byte :=
    forall_byte (by decide)
  rw [encode, List.map_flatMap, List.flatMap_congr fun byte _ => each byte]

theorem lower_upper (bytes : List UInt8) : ((encode bytes).map upper).map lower = encode bytes := by
  have each : ∀ byte, ((encodeByte byte).map upper).map lower = encodeByte byte :=
    forall_byte (by decide)
  rw [encode, List.map_flatMap, List.map_flatMap, List.flatMap_congr fun byte _ => each byte]

/-! Order -/

theorem compare_digit (small : a < 16) (small' : b < 16) :
    compare (digit a) (digit b) = compare a b := by
  have each : ∀ a < 16, ∀ b < 16, compare (digit a) (digit b) = compare a b := by decide
  exact each a small b small'

/-- The last digits tell if the rest is the same. -/
theorem compare_divMod (a b : Nat) :
    compare a b = (compare (a / 16) (b / 16)).then (compare (a % 16) (b % 16)) := by
  cases order : compare (a / 16) (b / 16) with
  | lt =>
    have := Nat.compare_eq_lt.mp order
    exact Nat.compare_eq_lt.mpr (by omega)
  | gt =>
    have := Nat.compare_eq_gt.mp order
    exact Nat.compare_eq_gt.mpr (by omega)
  | eq =>
    have := Nat.compare_eq_eq.mp order
    have less : a < b ↔ a % 16 < b % 16 := by omega
    have more : b < a ↔ b % 16 < a % 16 := by omega
    simp only [Ordering.eq_then, Nat.compare_eq_ite_lt, less, more]

theorem compare_encodeByte (a b : UInt8) (rest rest' : List UInt8) :
    List.compareLex compare (encodeByte a ++ rest) (encodeByte b ++ rest') =
      (compare a b).then (List.compareLex compare rest rest') := by
  have high := a.toNat_lt
  have high' := b.toNat_lt
  simp only [encodeByte, List.cons_append, List.nil_append, List.compareLex_cons_cons]
  rw [compare_digit (by omega) (by omega), compare_digit (by omega) (by omega),
    ← Ordering.then_assoc, ← compare_divMod, ← UInt8.compare_eq_toNat_compare_toNat]

/-- Bytes compare as their digits do. -/
theorem compare_encode (bytes others : List UInt8) :
    compare (encode bytes) (encode others) = compare bytes others := by
  simp only [List.compare_eq_compareLex]
  induction bytes generalizing others with
  | nil => cases others <;> rfl
  | cons a bytes ih =>
    cases others with
    | nil => rfl
    | cons b others =>
      simp only [encode, List.flatMap_cons, compare_encodeByte, List.compareLex_cons_cons]
      exact congrArg _ (ih others)

end Hex

namespace Monero.Hash

variable {a b : Hash} {hashes sorted : List Hash}

/-- The bytes of the text. -/
def shown (hash : Hash) : List UInt8 := Utf8.encode hash.text.toList

/-- Whether one hash is not after another. -/
def precedes (a b : Hash) : Bool := (compare a b).isLE

theorem shown_eq (hash : Hash) : hash.shown = Hex.encode hash.bytes.toList :=
  (Hex.token_encode hash.bytes.toList).2

theorem encode_shown (hash : Hash) :
    Codable.encode hash = .ok (Ascii.quote :: hash.shown ++ [Ascii.quote]) := by
  have tree : (Codable.schema Hash).tree? (Codable.toValue hash) =
      some (.leaf (.binary hash.bytes.toList)) := rfl
  rw [shown_eq]
  exact Schema.encode_eq tree

theorem decode_shown (options : Reader.Options) (hash : Hash) {letters : List UInt8}
    (same : letters.map Hex.lower = hash.shown) :
    Codable.decode Hash options (Ascii.quote :: letters ++ [Ascii.quote]) = .ok hash := by
  rw [shown_eq] at same
  have digits := Hex.isDigit_of_lower same
  have fits : letters.length = 2 * 32 := by
    simpa [Hex.length_encode] using congrArg List.length same
  obtain ⟨bytes, decoded, encoded⟩ := Hex.decode_digits fits digits
  obtain rfl : bytes = hash.bytes := by
    have := Hex.decode_encode bytes
    rw [encoded, same, Hex.decode_encode] at this
    exact (Except.ok.inj this).symm
  obtain ⟨token, spelled⟩ := Hex.token_digits digits
  have spells : (Schema.binary 32).Spells (Reader.room options.depthLimit 0) hash.bytes
      (Ascii.quote :: letters ++ [Ascii.quote]) :=
    ⟨_, token, by rwa [String.toList_ofList, spelled]⟩
  exact congrArg (Except.map Codable.ofValue) (Schema.decodeInto_of_spells spells)

theorem compare_shown (a b : Hash) : compare a b = compare a.shown b.shown := by
  rw [shown_eq, shown_eq, Hex.compare_encode]
  rfl

/-- The order of the bytes is linear, and so is that of the hashes. -/
instance : Std.TransOrd Hash where
  eq_swap {a b} := Std.OrientedOrd.eq_swap (a := a.bytes.toList) (b := b.bytes.toList)
  isLE_trans {a b c} := Std.TransOrd.isLE_trans (a := a.bytes.toList) (b := b.bytes.toList)
    (c := c.bytes.toList)

instance : Std.LawfulEqOrd Hash where
  compare_self {a} := Std.ReflOrd.compare_self (a := a.bytes.toList)
  eq_of_compare {a b} same := by
    have bytes : a.bytes.toList = b.bytes.toList := Std.LawfulEqOrd.eq_of_compare same
    cases a
    cases b
    exact congrArg Hash.mk (Vector.toList_inj.mp bytes)

theorem shown_inj : a.shown = b.shown ↔ a = b := by
  constructor
  · intro same
    apply Std.LawfulEqOrd.eq_of_compare
    rw [compare_shown, same]
    exact Std.ReflOrd.compare_self
  · rintro rfl
    rfl

theorem precedes_trans (a b c : Hash) (first : precedes a b = true) (second : precedes b c = true) :
    precedes a c = true :=
  Std.TransOrd.isLE_trans first second

theorem precedes_total (a b : Hash) : (precedes a b || precedes b a) = true := by
  rw [precedes, precedes, Std.OrientedOrd.eq_swap (a := b)]
  cases compare a b <;> rfl

theorem precedes_antisymm (less : precedes a b = true) (more : precedes b a = true) : a = b :=
  Std.LawfulEqOrd.eq_of_compare (Std.OrientedCmp.isLE_antisymm less more)

/-- However hashes were put in order, the result is the same. -/
theorem eq_mergeSort (same : sorted.Perm hashes)
    (inOrder : sorted.Pairwise fun a b => precedes a b = true) :
    sorted = hashes.mergeSort precedes :=
  List.Perm.eq_of_pairwise (fun _ _ _ _ => precedes_antisymm) inOrder
    (List.pairwise_mergeSort precedes_trans precedes_total hashes)
    (same.trans (List.mergeSort_perm hashes precedes).symm)

/-- A hash is shown as two digits for each byte, as its bytes split by a table are. Encoded, it is
that text in quotes, which is decoded to it in lower case, in upper case and in both. Hashes
compare as their texts do, so different ones have different texts, and to sort hashes is to sort
their texts. -/
theorem text_faithful (a b : Hash) :
    a.text.toList = a.bytes.toList.flatMap Hex.padded ∧
      a.shown = a.bytes.toList.flatMap Hex.splitByte ∧
      Codable.encode a = .ok (Ascii.quote :: a.shown ++ [Ascii.quote]) ∧
      (∀ options : Reader.Options,
        Codable.decode Hash options (Ascii.quote :: a.shown ++ [Ascii.quote]) = .ok a ∧
          Codable.decode Hash options (Ascii.quote :: a.shown.map Hex.upper ++ [Ascii.quote]) =
            .ok a ∧
          ∀ letters, letters.map Hex.lower = a.shown →
            Codable.decode Hash options (Ascii.quote :: letters ++ [Ascii.quote]) = .ok a) ∧
      compare a b = compare a.shown b.shown ∧
      (a.text = b.text ↔ a = b) ∧
      ∀ hashes : List Hash,
        (hashes.mergeSort precedes).map shown =
            (hashes.map shown).mergeSort (fun text other => (compare text other).isLE) ∧
          ∀ sorted : List Hash, sorted.Perm hashes →
            (sorted.map shown).Pairwise (fun text other => (compare text other).isLE = true) →
              sorted = hashes.mergeSort precedes := by
  have order (a b : Hash) : precedes a b = (compare a.shown b.shown).isLE := by
    rw [precedes, compare_shown]
  have lower : a.shown.map Hex.lower = a.shown := by rw [shown_eq, Hex.lower_encode]
  have upper : (a.shown.map Hex.upper).map Hex.lower = a.shown := by
    rw [shown_eq, Hex.lower_upper]
  refine ⟨Hex.toList_text _, ?_, encode_shown a, fun options => ?_, compare_shown a b, ?_,
    fun hashes => ⟨?_, fun sorted same inOrder => ?_⟩⟩
  · rw [shown_eq]
    exact (List.flatMap_congr fun byte _ => Hex.splitByte_eq byte).symm
  · exact ⟨decode_shown options a lower, decode_shown options a upper,
      fun letters => decode_shown options a⟩
  · constructor
    · intro same
      exact shown_inj.mp (by rw [shown, shown, same])
    · rintro rfl
      rfl
  · exact List.map_mergeSort fun a _ b _ => order a b
  · refine eq_mergeSort same ((List.pairwise_map.mp inOrder).imp fun {a b} less => ?_)
    rw [order]
    exact less

end Monero.Hash

end TypedJson

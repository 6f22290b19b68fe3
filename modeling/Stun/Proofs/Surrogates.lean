import Stun.Proofs.Forwarding
import Stun.Text.Utf16

/-!
# Texts in 16-bit units

A text can be given as any sequence of 16-bit units. What is read from it is the one text whose units
are the given ones with U+FFFD for each surrogate that has no partner. A text attribute is made of
that text if its UTF-8 form is short enough, which is then what stands in the message and what the
text is read back from.
-/
namespace Stun

namespace Utf16

def units (c : Char) : List UInt16 :=
  if c.toNat < 0x10000 then [UInt16.ofNat c.toNat]
  else
    [UInt16.ofNat (0xd800 + (c.toNat - 0x10000) / 0x400),
      UInt16.ofNat (0xdc00 + (c.toNat - 0x10000) % 0x400)]

def encode (text : String) : List UInt16 := text.toList.flatMap units

/-- The unit in front of a place among units that follow `before`. -/
def previous? (before : Option UInt16) (given : List UInt16) : Nat → Option UInt16
  | 0 => before
  | i + 1 => given[i]?

/-- A surrogate without its other half next to it. -/
def alone (before : Option UInt16) (u : UInt16) (behind : Option UInt16) : Bool :=
  isHigh u && !behind.any isLow || isLow u && !before.any isHigh

/-- The units that follow `before`, with U+FFFD in place of each surrogate that is alone. -/
def mendedBehind (before : Option UInt16) (given : List UInt16) : List UInt16 :=
  given.mapIdx fun i u => if alone (previous? before given i) u given[i + 1]? then 0xfffd else u

def mended (given : List UInt16) : List UInt16 := mendedBehind none given

theorem isHigh_iff {u : UInt16} : isHigh u = true ↔ 0xd800 ≤ u.toNat ∧ u.toNat < 0xdc00 := by
  rw [isHigh, decide_eq_true_eq, UInt16.le_iff_toNat_le, UInt16.lt_iff_toNat_lt]
  rfl

theorem isLow_iff {u : UInt16} : isLow u = true ↔ 0xdc00 ≤ u.toNat ∧ u.toNat < 0xe000 := by
  rw [isLow, decide_eq_true_eq, UInt16.le_iff_toNat_le, UInt16.lt_iff_toNat_lt]
  rfl

theorem isLow_of_isHigh {u : UInt16} (h : isHigh u = true) : isLow u = false := by
  rw [isHigh_iff] at h
  rw [Bool.eq_false_iff, ne_eq, isLow_iff]
  omega

theorem isHigh_of_isLow {u : UInt16} (h : isLow u = true) : isHigh u = false := by
  rw [isLow_iff] at h
  rw [Bool.eq_false_iff, ne_eq, isHigh_iff]
  omega

theorem toNat_character {n : Nat} (hn : n.isValidChar) : (Char.ofNat n).toNat = n := by
  rw [Char.ofNat, dif_pos hn]
  exact UInt32.toNat_ofNatLT ..

theorem units_single (u : UInt16) :
    units (single u) = [if isHigh u || isLow u then 0xfffd else u] := by
  unfold single
  split
  next => rfl
  next h =>
    have hlt := u.toNat_lt
    have hvalid : u.toNat.isValidChar := by
      simp only [Bool.or_eq_true, isHigh_iff, isLow_iff] at h
      simp only [Nat.isValidChar]
      omega
    rw [units, toNat_character hvalid, if_pos hlt, UInt16.ofNat_toNat]

theorem toNat_pair {u v : UInt16} (hu : isHigh u = true) (hv : isLow v = true) :
    (pair u v).toNat = 0x10000 + (u.toNat - 0xd800) * 0x400 + (v.toNat - 0xdc00) := by
  rw [isHigh_iff] at hu
  rw [isLow_iff] at hv
  refine toNat_character ?_
  simp only [Nat.isValidChar]
  omega

theorem units_pair {u v : UInt16} (hu : isHigh u = true) (hv : isLow v = true) :
    units (pair u v) = [u, v] := by
  have hpair := toNat_pair hu hv
  rw [isHigh_iff] at hu
  rw [isLow_iff] at hv
  have hhigh : 0xd800 + ((pair u v).toNat - 0x10000) / 0x400 = u.toNat := by omega
  have hlow : 0xdc00 + ((pair u v).toNat - 0x10000) % 0x400 = v.toNat := by omega
  rw [units, if_neg (by omega), hhigh, hlow, UInt16.ofNat_toNat, UInt16.ofNat_toNat]

theorem mendedBehind_cons (before : Option UInt16) (u : UInt16) (rest : List UInt16) :
    mendedBehind before (u :: rest) =
      (if alone before u rest[0]? then 0xfffd else u) :: mendedBehind (some u) rest := by
  rw [mendedBehind, List.mapIdx_cons]
  refine congrArg (List.cons _) (congrArg (List.mapIdx · rest) (funext₂ fun i w => ?_))
  cases i <;> rfl

/-- What stands before the units does not matter unless the first of them completes a pair. -/
theorem mendedBehind_of_not_pair {before : Option UInt16} {given : List UInt16}
    (h : before.any isHigh = true → given[0]?.any isLow = false) :
    mendedBehind before given = mended given := by
  cases given with
  | nil => rfl
  | cons u rest =>
    have halone : alone before u rest[0]? = alone none u rest[0]? := by
      cases hbefore : before.any isHigh with
      | false => rw [alone, alone, hbefore]; rfl
      | true =>
        have hlow : isLow u = false := h hbefore
        rw [alone, alone, hlow, Bool.false_and, Bool.false_and]
    rw [mended, mendedBehind_cons, mendedBehind_cons, halone]

theorem mended_pair {u v : UInt16} (hu : isHigh u = true) (hv : isLow v = true)
    (rest : List UInt16) : mended (u :: v :: rest) = u :: v :: mended rest := by
  have hfirst : alone none u (some v) = false := by
    rw [alone, hu, isLow_of_isHigh hu, Option.any_some, hv]
    rfl
  have hsecond : alone (some u) v rest[0]? = false := by
    rw [alone, hv, isHigh_of_isLow hv, Option.any_some, hu]
    rfl
  have hrest : mendedBehind (some v) rest = mended rest := by
    refine mendedBehind_of_not_pair fun h => ?_
    rw [Option.any_some, isHigh_of_isLow hv] at h
    cases h
  rw [mended, mendedBehind_cons, mendedBehind_cons, List.getElem?_cons_zero, hfirst, hsecond, hrest]
  rfl

theorem mended_cons {u : UInt16} {rest : List UInt16}
    (h : isHigh u = true → rest[0]?.any isLow = false) :
    mended (u :: rest) = (if isHigh u || isLow u then 0xfffd else u) :: mended rest := by
  have hfirst : alone none u rest[0]? = (isHigh u || isLow u) := by
    rw [alone, Option.any_none, Bool.not_false, Bool.and_true]
    cases hu : isHigh u with
    | false => rfl
    | true => rw [h hu]; rfl
  have hrest : mendedBehind (some u) rest = mended rest := mendedBehind_of_not_pair h
  rw [mended, mendedBehind_cons, hfirst, hrest]

/-- The units of the characters that are read are the given ones, with U+FFFD for each surrogate that
is alone. -/
theorem flatMap_units_characters (given : List UInt16) :
    (characters given).flatMap units = mended given := by
  fun_induction characters given with
  | case1 => rfl
  | case2 u =>
    rw [mended_cons fun _ => rfl, List.flatMap_cons, units_single]
    rfl
  | case3 u v rest hpair ih =>
    obtain ⟨hu, hv⟩ := Bool.and_eq_true_iff.1 hpair
    rw [mended_pair hu hv, List.flatMap_cons, units_pair hu hv, ih]
    rfl
  | case4 u v rest hpair ih =>
    rw [Bool.and_eq_true_iff] at hpair
    have hcut : isHigh u = true → (v :: rest)[0]?.any isLow = false := fun hu =>
      Bool.eq_false_iff.2 fun hv : isLow v = true => hpair ⟨hu, hv⟩
    rw [mended_cons hcut, List.flatMap_cons, units_single, ih]
    rfl

theorem encode_decode (given : List UInt16) : encode (decode given) = mended given := by
  rw [encode, decode, String.toList_ofList, flatMap_units_characters]

theorem characters_cons {u : UInt16} (hu : isHigh u = false) (rest : List UInt16) :
    characters (u :: rest) = single u :: characters rest := by
  cases rest with
  | nil => rfl
  | cons v rest =>
    rw [characters, hu]
    rfl

theorem single_of_lt {c : Char} (h : c.toNat < 0x10000) :
    isHigh (UInt16.ofNat c.toNat) = false ∧ single (UInt16.ofNat c.toNat) = c := by
  have hvalid : c.toNat < 0xd800 ∨ 0xdfff < c.toNat ∧ c.toNat < 0x110000 := c.valid
  have hunit : (UInt16.ofNat c.toNat).toNat = c.toNat := UInt16.toNat_ofNat_of_lt h
  have hhigh : isHigh (UInt16.ofNat c.toNat) = false := by
    rw [Bool.eq_false_iff, ne_eq, isHigh_iff, hunit]
    omega
  have hlow : isLow (UInt16.ofNat c.toNat) = false := by
    rw [Bool.eq_false_iff, ne_eq, isLow_iff, hunit]
    omega
  refine ⟨hhigh, ?_⟩
  rw [single, hhigh, hlow, hunit]
  exact Char.ofNat_toNat c

theorem exists_pair {c : Char} (h : 0x10000 ≤ c.toNat) :
    ∃ u v, units c = [u, v] ∧ isHigh u = true ∧ isLow v = true ∧ pair u v = c := by
  have hvalid : c.toNat < 0xd800 ∨ 0xdfff < c.toNat ∧ c.toNat < 0x110000 := c.valid
  obtain ⟨u, hu⟩ : ∃ u, u = UInt16.ofNat (0xd800 + (c.toNat - 0x10000) / 0x400) := ⟨_, rfl⟩
  obtain ⟨v, hv⟩ : ∃ v, v = UInt16.ofNat (0xdc00 + (c.toNat - 0x10000) % 0x400) := ⟨_, rfl⟩
  have hunat : u.toNat = 0xd800 + (c.toNat - 0x10000) / 0x400 := by
    rw [hu]
    exact UInt16.toNat_ofNat_of_lt (Nat.lt_of_lt_of_le (by omega : _ < 0xdc00) (by decide))
  have hvnat : v.toNat = 0xdc00 + (c.toNat - 0x10000) % 0x400 := by
    rw [hv]
    exact UInt16.toNat_ofNat_of_lt (Nat.lt_of_lt_of_le (by omega : _ < 0xe000) (by decide))
  have hhigh : isHigh u = true := isHigh_iff.2 (by omega)
  have hlow : isLow v = true := isLow_iff.2 (by omega)
  refine ⟨u, v, ?_, hhigh, hlow, ?_⟩
  · rw [units, if_neg (Nat.not_lt.2 h), hu, hv]
  · rw [← Char.ofNat_toNat c, ← Char.ofNat_toNat (pair u v), toNat_pair hhigh hlow]
    exact congrArg Char.ofNat (by omega)

theorem characters_units_append (c : Char) (rest : List UInt16) :
    characters (units c ++ rest) = c :: characters rest := by
  by_cases hsmall : c.toNat < 0x10000
  · obtain ⟨hhigh, hsingle⟩ := single_of_lt hsmall
    rw [units, if_pos hsmall, List.singleton_append, characters_cons hhigh, hsingle]
  · obtain ⟨u, v, hunits, hhigh, hlow, hpair⟩ := exists_pair (Nat.le_of_not_lt hsmall)
    rw [hunits, List.cons_append, List.singleton_append, characters, hhigh, hlow, hpair]
    rfl

theorem decode_encode (text : String) : decode (encode text) = text := by
  have hcharacters (cs : List Char) : characters (cs.flatMap units) = cs := by
    induction cs with
    | nil => rfl
    | cons c cs ih => rw [List.flatMap_cons, characters_units_append, ih]
  rw [decode, encode, hcharacters, String.ofList_toList]

theorem encode_eq_mended_iff {given : List UInt16} {text : String} :
    encode text = mended given ↔ text = decode given := by
  constructor
  · intro h
    rw [← encode_decode] at h
    rw [← decode_encode text, h, decode_encode]
  · rintro rfl
    exact encode_decode given

example : decode [0xfeff, 0xd83d, 0xde00, 0xdc00, 0x61] = "\ufeff😀\ufffda" := by decide

end Utf16

theorem Attribute.ofText_of_short {kind : TextKind} {text : String}
    (h : text.utf8ByteSize < kind.limit) : ofText kind text = .ok (.text kind ⟨text, h⟩) := by
  rw [ofText, BoundedText.ofString, dif_pos h]
  rfl

theorem Attribute.ofText_of_long {kind : TextKind} {text : String}
    (h : kind.limit ≤ text.utf8ByteSize) :
    ofText kind text = .error (.encode (.textTooLong kind text.utf8ByteSize)) := by
  rw [ofText, BoundedText.ofString, dif_neg (Nat.not_lt.2 h)]
  rfl

open Builder

/-- The attribute is written as certain bytes to any builder that has room for them, is decoded from
any value that has these bytes, and so comes back from any finished message it was added to. -/
structure Attribute.Conveys (a : Attribute) (bytes : List UInt8) : Prop where
  added : ∀ b, Reachable b →
    b.length + (attributeHeaderSize + padded bytes.length) < headerSize + 2 ^ 16 →
    ∀ key, (b.add (a.draft key)).result = .ok [] ∧
      b.Gains (b.add (a.draft key)).builder a.kind.code bytes
  decoded : ∀ (m : Message) (s : Span), m.value s = bytes →
    ∀ key, m.decodeAt a.kind key s = .ok a
  returned : ∀ (messageClass : MessageClass) (number : Number) (id : TransactionId) (b : Builder),
    create messageClass number id = .ok b → ∀ before after : List Operation,
    (∀ op ∈ before, op.framed) → (∀ op ∈ after, op.framed) →
    (b.after before).length + (attributeHeaderSize + padded bytes.length) < headerSize + 2 ^ 16 →
    ∀ (key key' : Key) (limit : Number),
    limit.Admits (b.additions (before ++ .add (a.draft key) :: after)).length →
    ∃ data m s, (b.after (before ++ .add (a.draft key) :: after)).finish.result = .ok data ∧
      Message.parse limit data = .ok m ∧ m.spans[(b.additions before).length]? = some s ∧
      s.type = a.kind.code ∧ m.value s = bytes ∧ m.decodeAt a.kind key' s = .ok a

theorem Attribute.conveys_of_wire {a : Attribute} (hcode : a.kind ≠ .errorCode)
    {bytes : List UInt8} (hwire : ∀ id, a.wire? id = some bytes) : a.Conveys bytes where
  added _ hb hroom key := hb.add_wire key (hwire _) hroom
  decoded m _ hvalue _ := by
    apply Message.decodeAt_wire hcode
    rw [hvalue]
    exact hwire m.header.transactionId
  returned _ _ id b hb before after hbefore hafter hroom key key' limit hlimit := by
    rw [length_wire (hwire id)] at hroom
    exact (Message.decodeAt_of_added hb hbefore hafter hcode (hwire id) key key' hroom hlimit).2

/-- The text that is read from units has these units, with U+FFFD for each surrogate that is alone,
and no other text has. A text attribute can be made of it if and only if its UTF-8 form is shorter
than the limit of the kind. That form is then what is written to a message, and it is decoded to the
very text again, a byte order mark at its start included. -/
theorem Attribute.ofText_units (kind : TextKind) (given : List UInt16) :
    let w := Utf16.decode given
    (∀ text, Utf16.encode text = Utf16.mended given ↔ text = w) ∧
    kind.limit = (if kind = .username then 513 else 763) ∧
    ((∃ e, ofText kind w = .error e) ↔ kind.limit ≤ (Utf8.encode w).length) ∧
    (∀ e, ofText kind w = .error e → e = .encode (.textTooLong kind (Utf8.encode w).length)) ∧
    ((Utf8.encode w).length < kind.limit → ∃ t : BoundedText kind, t.text = w ∧
      ofText kind w = .ok (.text kind t) ∧ (Attribute.text kind t).Conveys (Utf8.encode w)) := by
  intro w
  rw [Utf8.length_encode]
  refine ⟨fun text => Utf16.encode_eq_mended_iff, by cases kind <;> rfl, ?_, ?_, ?_⟩
  · constructor
    · rintro ⟨e, he⟩
      by_contra hlong
      rw [ofText_of_short (Nat.lt_of_not_le hlong)] at he
      cases he
    · intro hlong
      exact ⟨_, ofText_of_long hlong⟩
  · intro e he
    by_cases hshort : w.utf8ByteSize < kind.limit
    · rw [ofText_of_short hshort] at he
      cases he
    · rw [ofText_of_long (Nat.le_of_not_lt hshort)] at he
      exact (Except.error.inj he).symm
  · intro hshort
    exact ⟨⟨w, hshort⟩, rfl, ofText_of_short hshort,
      conveys_of_wire Kind.noConfusion fun _ => rfl⟩

end Stun

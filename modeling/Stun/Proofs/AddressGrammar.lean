import Mathlib.Data.List.Forall2
import Mathlib.Data.List.Induction
import Stun.Ip.Address

/-!
# The grammars of address texts

The texts of addresses, said without reading them: fields of decimal digits with dots between them,
and groups of hexadecimal digits with colons between them, where a double colon stands for the
groups that are missing. Exactly these texts are read, each as the address it stands for. All others
are refused as texts that cannot be encoded.
-/
namespace Stun

theorem mapM_eq_some_iff {α β : Type} {f : α → Option β} {xs : List α} {ys : List β} :
    xs.mapM f = some ys ↔ List.Forall₂ (fun x y => f x = some y) xs ys := by
  induction xs generalizing ys with
  | nil => cases ys <;> simp [pure]
  | cons x xs ih =>
    rw [List.mapM_cons, List.forall₂_cons_left_iff]
    simp only [← ih]
    cases f x <;> cases xs.mapM f <;> simp [eq_comm]

theorem forall_mem_of_forall₂ {α β : Type} {R : α → β → Prop} {p : α → Prop} {xs : List α}
    {ys : List β} (h : List.Forall₂ R xs ys) (hp : ∀ x y, R x y → p x) : ∀ x ∈ xs, p x :=
  ((List.forall₂_and_left xs ys).1 (h.imp fun x y hxy => ⟨hp x y hxy, hxy⟩)).1

/-- A check of each character of a list; deciding the statement could mean to go through all
characters there are. -/
theorem forall_mem_of_all {cs : List Char} {p : Char → Prop} [DecidablePred p]
    (h : cs.all fun c => p c) : ∀ c ∈ cs, p c := fun c hc =>
  of_decide_eq_true (List.all_eq_true.1 h c hc)

namespace Ip

/-- The digits, each at the place of its value. -/
def digitCharacters : List Char := "0123456789abcdef".toList

/-- The number that digits stand for in a base. -/
def numeral (base : Nat) (digits : List Char) : Nat :=
  digits.foldl (fun n c => base * n + digitCharacters.idxOf c) 0

/-- One to three decimal digits that stand for a byte. -/
structure Octet (text : List Char) (b : UInt8) : Prop where
  length_pos : 1 ≤ text.length
  length_le : text.length ≤ 3
  digits : ∀ c ∈ text, c ∈ digitCharacters.take 10
  value : numeral 10 text = b.toNat

/-- One to four hexadecimal digits in either case. -/
structure Group (text : List Char) (w : BitVec 16) : Prop where
  length_pos : 1 ≤ text.length
  length_le : text.length ≤ 4
  digits : ∀ c ∈ text, c.toLower ∈ digitCharacters
  value : numeral 16 (text.map Char.toLower) = w.toNat

theorem numeral_concat (base : Nat) (digits : List Char) (c : Char) :
    numeral base (digits ++ [c]) = base * numeral base digits + digitCharacters.idxOf c := by
  rw [numeral, List.foldl_append]
  rfl

theorem idxOf_lt {c : Char} (hc : c ∈ digitCharacters) : digitCharacters.idxOf c < 16 :=
  List.idxOf_lt_length_iff.2 hc

theorem numeral_lt {digits : List Char} (h : ∀ c ∈ digits, c ∈ digitCharacters) :
    numeral 16 digits < 16 ^ digits.length := by
  induction digits using List.reverseRecOn with
  | nil => exact Nat.one_pos
  | append_singleton digits c ih =>
    have hrest := ih fun d hd => h d (List.mem_append_left _ hd)
    have hlast := idxOf_lt (h c (List.mem_append_right _ (List.mem_singleton_self c)))
    rw [numeral_concat, List.length_append, List.length_singleton, Nat.pow_succ]
    omega

theorem mem_range'_map {c : Char} {start size : Nat} (hstart : start ≤ c.toNat)
    (hstop : c.toNat < start + size) : c ∈ (List.range' start size).map Char.ofNat :=
  List.mem_map.2 ⟨c.toNat, List.mem_range'_1.2 ⟨hstart, hstop⟩, Char.ofNat_toNat c⟩

theorem isDigit_iff {c : Char} : c.isDigit ↔ c ∈ digitCharacters.take 10 := by
  constructor
  · intro hc
    have hall : ∀ c ∈ (List.range' 0x30 10).map Char.ofNat, c ∈ digitCharacters.take 10 :=
      forall_mem_of_all (by decide)
    obtain ⟨hge, hle⟩ := Char.isDigit_iff_toNat.1 hc
    exact hall c (mem_range'_map hge (Nat.lt_succ_of_le hle))
  · have hall : ∀ c ∈ digitCharacters.take 10, c.isDigit := forall_mem_of_all (by decide)
    exact hall c

theorem sub_toNat_zero : ∀ c ∈ digitCharacters.take 10,
    c.toNat - '0'.toNat = digitCharacters.idxOf c := forall_mem_of_all (by decide)

theorem decimal_eq_numeral {text : List Char} (h : ∀ c ∈ text, c ∈ digitCharacters.take 10) :
    decimal text = numeral 10 text :=
  List.foldl_ext _ _ 0 fun n c hc => congrArg (10 * n + ·) (sub_toNat_zero c (h c hc))

theorem Octet.isOctetText {text : List Char} {b : UInt8} (h : Octet text b) : IsOctetText text :=
  ⟨h.length_pos, h.length_le, List.all_eq_true.2 fun c hc => isDigit_iff.2 (h.digits c hc)⟩

theorem octet?_eq_some_iff {text : List Char} {b : UInt8} :
    octet? text = some b ↔ Octet text b := by
  rw [octet?]
  constructor
  · intro h
    split at h
    next hcond =>
      obtain ⟨⟨hpos, hle, hall⟩, hbyte⟩ := hcond
      have hdigits : ∀ c ∈ text, c ∈ digitCharacters.take 10 := fun c hc =>
        isDigit_iff.1 (List.all_eq_true.1 hall c hc)
      cases h
      refine ⟨hpos, hle, hdigits, ?_⟩
      rw [UInt8.toNat_ofNat', decimal_eq_numeral hdigits] at *
      omega
    next => cases h
  · intro h
    have hbyte := b.toNat_lt
    rw [decimal_eq_numeral h.digits, h.value, if_pos ⟨h.isOctetText, by omega⟩, UInt8.ofNat_toNat]

theorem hexDigit?_of_ge {c : Char} (hc : 128 ≤ c.toNat) : hexDigit? c = none := by
  have hnot {d : Char} (hd : d.toNat < 128) : ¬ c ≤ d := fun h =>
    Nat.not_lt_of_le (Nat.le_trans hc (UInt32.le_iff_toNat_le.1 h)) hd
  have hdigit : ¬ c.isDigit := fun h => hnot (by decide) (Char.isDigit_iff_toNat.1 h).2
  rw [hexDigit?, if_neg hdigit, if_neg fun h => hnot (by decide) h.2,
    if_neg fun h => hnot (by decide) h.2]

theorem toLower_of_ge {c : Char} (hc : 128 ≤ c.toNat) : c.toLower = c := by
  refine dif_neg fun h => ?_
  have hle : c.toNat ≤ 'Z'.toNat := UInt32.le_iff_toNat_le.1 h.2
  exact Nat.not_le_of_lt (by decide : 'Z'.toNat < 128) (Nat.le_trans hc hle)

theorem hexDigit?_eq (c : Char) :
    hexDigit? c = if c.toLower ∈ digitCharacters then some (digitCharacters.idxOf c.toLower)
      else none := by
  by_cases hc : c.toNat < 128
  · have hall : ∀ c ∈ (List.range' 0 128).map Char.ofNat,
        hexDigit? c = if c.toLower ∈ digitCharacters then
          some (digitCharacters.idxOf c.toLower) else none :=
      forall_mem_of_all (by decide +kernel)
    exact hall c (mem_range'_map (Nat.zero_le _) (by omega))
  · have hall : ∀ d ∈ digitCharacters, d.toNat < 128 := forall_mem_of_all (by decide)
    rw [hexDigit?_of_ge (by omega), toLower_of_ge (by omega), if_neg fun h => hc (hall c h)]

theorem hexDigit?_eq_some_iff {c : Char} {value : Nat} :
    hexDigit? c = some value ↔
      c.toLower ∈ digitCharacters ∧ digitCharacters.idxOf c.toLower = value := by
  rw [hexDigit?_eq]
  split
  next hc => simp [hc]
  next hc => simp [hc]

theorem mapM_hexDigit?_eq_some_iff {text : List Char} {values : List Nat} :
    text.mapM hexDigit? = some values ↔
      (∀ c ∈ text, c.toLower ∈ digitCharacters) ∧
        (text.map fun c => digitCharacters.idxOf c.toLower) = values := by
  have hvalues : List.Forall₂ (fun (c : Char) value => digitCharacters.idxOf c.toLower = value)
      text values ↔ (text.map fun c => digitCharacters.idxOf c.toLower) = values := by
    rw [← List.forall₂_map_left_iff (f := fun c : Char => digitCharacters.idxOf c.toLower)
      (R := fun value value' => value = value'), List.forall₂_eq_eq_eq]
  rw [mapM_eq_some_iff, ← hvalues, ← List.forall₂_and_left]
  simp only [hexDigit?_eq_some_iff]

theorem group?_eq_some_iff {text : List Char} {w : BitVec 16} :
    group? text = some w ↔ Group text w := by
  have hfold : (text.map fun c => digitCharacters.idxOf c.toLower).foldl (16 * · + ·) 0 =
      numeral 16 (text.map Char.toLower) := by
    rw [numeral, List.foldl_map, List.foldl_map]
  rw [group?]
  constructor
  · intro h
    split at h
    next hlength =>
      obtain ⟨values, hvalues, rfl⟩ := Option.map_eq_some_iff.1 h
      obtain ⟨hdigits, rfl⟩ := mapM_hexDigit?_eq_some_iff.1 hvalues
      refine ⟨hlength.1, hlength.2, hdigits, ?_⟩
      have hlt : numeral 16 (text.map Char.toLower) < 16 ^ (text.map Char.toLower).length :=
        numeral_lt (by simpa using hdigits)
      rw [List.length_map] at hlt
      have hle : 16 ^ text.length ≤ 16 ^ 4 := Nat.pow_le_pow_right (by decide) hlength.2
      rw [hfold, BitVec.toNat_ofNat, Nat.mod_eq_of_lt (Nat.lt_of_lt_of_le hlt hle)]
    next => cases h
  · rintro ⟨hpos, hle, hdigits, hvalue⟩
    rw [if_pos ⟨hpos, hle⟩, mapM_hexDigit?_eq_some_iff.2 ⟨hdigits, rfl⟩, Option.map_some, hfold,
      hvalue, BitVec.ofNat_toNat, BitVec.setWidth_eq]

theorem Octet.not_mem_dot {text : List Char} {b : UInt8} (h : Octet text b) : '.' ∉ text :=
  fun hc => absurd (h.digits '.' hc) (by decide)

theorem Group.not_mem {text : List Char} {w : BitVec 16} (h : Group text w) {c : Char}
    (hc : c.toLower ∉ digitCharacters) : c ∉ text :=
  fun hmem => hc (h.digits c hmem)

theorem Group.ne_nil {text : List Char} {w : BitVec 16} (h : Group text w) : text ≠ [] :=
  List.ne_nil_of_length_pos h.length_pos

theorem fields_eq_splitOn (separator : Char) (text : List Char) :
    fields separator text = text.splitOn separator := by
  induction text with
  | nil => rfl
  | cons c rest ih =>
    rw [fields, List.splitOn_cons_eq_if_modifyHead, ih]
    by_cases hc : c = separator
    · rw [if_pos hc, if_pos (beq_iff_eq.2 hc)]
    · rw [if_neg hc, if_neg (by simpa using hc)]
      cases hs : rest.splitOn separator with
      | nil => exact absurd hs (List.splitOn_ne_nil separator rest)
      | cons piece pieces => rfl

/-- Nothing is lost between the pieces but the separators. -/
theorem intercalate_fields (separator : Char) (text : List Char) :
    [separator].intercalate (fields separator text) = text := by
  rw [fields_eq_splitOn]
  exact List.intercalate_splitOn separator

/-- Joined pieces are found again when none of them holds the separator. -/
theorem fields_intercalate {separator : Char} {pieces : List (List Char)} (hne : pieces ≠ [])
    (hpieces : ∀ piece ∈ pieces, separator ∉ piece) :
    fields separator ([separator].intercalate pieces) = pieces := by
  rw [fields_eq_splitOn]
  exact List.splitOn_intercalate separator hpieces hne

theorem fields_of_not_mem {separator : Char} {text : List Char} (h : separator ∉ text) :
    fields separator text = [text] := by
  rw [fields_eq_splitOn]
  exact List.splitOn_eq_singleton h

theorem mem_intercalate {separator c : Char} {pieces : List (List Char)}
    (hc : c ∈ [separator].intercalate pieces) : c = separator ∨ ∃ piece ∈ pieces, c ∈ piece := by
  induction pieces with
  | nil => cases hc
  | cons piece pieces ih =>
    by_cases hne : pieces = []
    · rw [hne, List.intercalate_singleton] at hc
      exact Or.inr ⟨piece, List.mem_cons_self, hc⟩
    · rw [List.intercalate_cons_of_ne_nil hne, List.append_assoc, List.mem_append,
        List.mem_append, List.mem_singleton] at hc
      rcases hc with hc | hc | hc
      · exact Or.inr ⟨piece, List.mem_cons_self, hc⟩
      · exact Or.inl hc
      · rcases ih hc with hsep | ⟨piece', hmem, hc⟩
        · exact Or.inl hsep
        · exact Or.inr ⟨piece', List.mem_cons_of_mem piece hmem, hc⟩

/-- Groups with single colons between them; no groups are the empty text. -/
def Groups (text : List Char) (groups : List (BitVec 16)) : Prop :=
  ∃ pieces, text = [':'].intercalate pieces ∧ List.Forall₂ Group pieces groups

theorem Groups.not_mem {text : List Char} {groups : List (BitVec 16)} (h : Groups text groups)
    {c : Char} (hcolon : c ≠ ':') (hc : c.toLower ∉ digitCharacters) : c ∉ text := by
  obtain ⟨pieces, rfl, hpieces⟩ := h
  have hnot := forall_mem_of_forall₂ hpieces fun _ _ hgroup => hgroup.not_mem hc
  intro hmem
  rcases mem_intercalate hmem with rfl | ⟨piece, hpiece, hmem⟩
  · exact hcolon rfl
  · exact hnot piece hpiece hmem

theorem extendFirst_ne_nil (c : Char) (pieces : List (List Char)) : extendFirst c pieces ≠ [] := by
  cases pieces <;> exact List.cons_ne_nil _ _

theorem doubleColonFields_ne_nil (text : List Char) : doubleColonFields text ≠ [] := by
  unfold doubleColonFields
  split
  next => exact List.cons_ne_nil _ _
  next => exact List.cons_ne_nil _ _
  next =>
    split
    · exact List.cons_ne_nil _ _
    · exact extendFirst_ne_nil _ _

theorem intercalate_extendFirst (separator : List Char) (c : Char) (pieces : List (List Char)) :
    separator.intercalate (extendFirst c pieces) = c :: separator.intercalate pieces := by
  cases pieces with
  | nil => rfl
  | cons piece pieces =>
    cases pieces with
    | nil => simp [extendFirst]
    | cons next pieces => simp [extendFirst, List.intercalate_cons_cons]

/-- Nothing is lost between the pieces but the double colons. -/
theorem intercalate_doubleColonFields (text : List Char) :
    [':', ':'].intercalate (doubleColonFields text) = text := by
  fun_induction doubleColonFields text with
  | case1 => rfl
  | case2 c => rfl
  | case3 c d rest h ih =>
    obtain ⟨rfl, rfl⟩ := h
    rw [List.intercalate_cons_of_ne_nil (doubleColonFields_ne_nil rest), ih]
    rfl
  | case4 c d rest h ih => rw [intercalate_extendFirst, ih]

theorem doubleColonFields_cons {c : Char} (hc : c ≠ ':') (rest : List Char) :
    doubleColonFields (c :: rest) = extendFirst c (doubleColonFields rest) := by
  cases rest with
  | nil => rfl
  | cons d rest => rw [doubleColonFields, if_neg (fun h => hc h.1)]

theorem doubleColonFields_colon {d : Char} (hd : d ≠ ':') (rest : List Char) :
    doubleColonFields (':' :: d :: rest) = extendFirst ':' (doubleColonFields (d :: rest)) := by
  rw [doubleColonFields, if_neg (fun h => hd h.2)]

/-- Characters other than colons go to the first piece. -/
theorem doubleColonFields_append {text : List Char} (htext : ':' ∉ text) {rest piece : List Char}
    {pieces : List (List Char)} (hrest : doubleColonFields rest = piece :: pieces) :
    doubleColonFields (text ++ rest) = (text ++ piece) :: pieces := by
  induction text with
  | nil => exact hrest
  | cons c text ih =>
    rw [List.cons_append, doubleColonFields_cons (fun h => htext (h ▸ List.mem_cons_self)),
      ih fun h => htext (List.mem_cons_of_mem c h)]
    rfl

/-- Groups that are joined by single colons stay in one piece. -/
theorem doubleColonFields_intercalate {groups : List (List Char)}
    (hgroups : ∀ group ∈ groups, group ≠ [] ∧ ':' ∉ group) {tail : List Char}
    {pieces : List (List Char)} (htail : doubleColonFields tail = [] :: pieces) :
    doubleColonFields ([':'].intercalate groups ++ tail) = [':'].intercalate groups :: pieces := by
  induction groups with
  | nil => exact htail
  | cons group groups ih =>
    obtain ⟨-, hgroup⟩ := hgroups group List.mem_cons_self
    have hrest := ih fun g hg => hgroups g (List.mem_cons_of_mem group hg)
    cases groups with
    | nil =>
      rw [List.intercalate_singleton, doubleColonFields_append hgroup htail, List.append_nil]
    | cons next groups =>
      -- The next group is not empty, so the colon in front of it stands alone.
      obtain ⟨hne, hnext⟩ := hgroups next (List.mem_cons_of_mem group List.mem_cons_self)
      obtain ⟨d, next, rfl⟩ := List.exists_cons_of_ne_nil hne
      have hd : d ≠ ':' := fun h => hnext (h ▸ List.mem_cons_self)
      rw [List.intercalate_cons_cons_left] at hrest
      have hcolon := doubleColonFields_colon hd ([':'].intercalate (next :: groups) ++ tail)
      rw [← List.cons_append, hrest] at hcolon
      rw [List.intercalate_cons_cons, List.intercalate_cons_cons_left, List.append_assoc,
        List.append_assoc, List.append_assoc]
      exact doubleColonFields_append hgroup hcolon

theorem Group.not_mem_colon {text : List Char} {w : BitVec 16} (h : Group text w) : ':' ∉ text :=
  h.not_mem (by decide)

theorem Groups.doubleColonFields {text : List Char} {groups : List (BitVec 16)}
    (h : Groups text groups) {tail : List Char} {pieces : List (List Char)}
    (htail : doubleColonFields tail = [] :: pieces) :
    doubleColonFields (text ++ tail) = text :: pieces := by
  obtain ⟨texts, rfl, htexts⟩ := h
  exact doubleColonFields_intercalate
    (forall_mem_of_forall₂ htexts fun _ _ hgroup => ⟨hgroup.ne_nil, hgroup.not_mem_colon⟩) htail

end Ip

namespace Ipv4

/-- Four decimal fields with dots between them. -/
def Written (text : List Char) (a : Ipv4) : Prop :=
  ∃ fields, text = ['.'].intercalate fields ∧ List.Forall₂ Ip.Octet fields a.bytes

theorem ofOctets?_eq_some_iff {fields : List (List Char)} {a : Ipv4} :
    ofOctets? fields = some a ↔ List.Forall₂ Ip.Octet fields a.bytes := by
  constructor
  · intro h
    unfold ofOctets? at h
    split at h
    next =>
      simp only [Option.bind_eq_bind, Option.bind_eq_some_iff, Option.pure_def,
        Option.some.injEq, Ip.octet?_eq_some_iff] at h
      obtain ⟨a, ha, b, hb, c, hc, d, hd, rfl⟩ := h
      exact .cons ha (.cons hb (.cons hc (.cons hd .nil)))
    next => cases h
  · obtain ⟨bytes, hsize⟩ := a
    intro h
    match bytes, hsize, fields, h with
    | [_, _, _, _], _, [_, _, _, _], .cons ha (.cons hb (.cons hc (.cons hd .nil))) =>
      simp only [ofOctets?, Ip.octet?_eq_some_iff.2 ha, Ip.octet?_eq_some_iff.2 hb,
        Ip.octet?_eq_some_iff.2 hc, Ip.octet?_eq_some_iff.2 hd, Option.bind_eq_bind,
        Option.bind_some]
      rfl

theorem Written.fields {text : List Char} {a : Ipv4} (h : Written text a) :
    List.Forall₂ Ip.Octet (Ip.fields '.' text) a.bytes := by
  obtain ⟨fields, rfl, hfields⟩ := h
  have hlength : fields.length = 4 := hfields.length_eq.trans a.size_eq
  rwa [Ip.fields_intercalate (List.ne_nil_of_length_pos (by omega))
    (forall_mem_of_forall₂ hfields fun _ _ hoctet => hoctet.not_mem_dot)]

theorem parse_eq_ok_iff {text : String} {a : Ipv4} :
    parse text = .ok a ↔ Written text.toList a := by
  rw [parse]
  constructor
  · intro h
    split at h
    next found hfound =>
      cases h
      exact ⟨_, (Ip.intercalate_fields '.' text.toList).symm, ofOctets?_eq_some_iff.1 hfound⟩
    next => cases h
  · intro h
    rw [ofOctets?_eq_some_iff.2 h.fields]

theorem parse_error {text : String} {e : Error} (h : parse text = .error e) :
    e = .encode (.ipv4 text) := by
  rw [parse] at h
  split at h
  next => cases h
  next => exact (Except.error.inj h).symm

end Ipv4

namespace Ipv6

/-- The text without a pair of brackets around it, or all of it if there is no pair. -/
def Unbracketed (text body : List Char) : Prop :=
  text = '[' :: (body ++ [']']) ∨ body = text ∧ ∀ inner, text ≠ '[' :: (inner ++ [']'])

/-- Eight groups, or at most seven with a double colon in the place of the missing ones. -/
inductive Hexadecimal : List Char → List UInt8 → Prop
  | whole {text : List Char} {groups : List (BitVec 16)} (h : Ip.Groups text groups)
    (size : groups.length = 8) : Hexadecimal text (Words.encode groups)
  | compressed {left right : List Char} {before after : List (BitVec 16)}
    (hleft : Ip.Groups left before) (hright : Ip.Groups right after)
    (size : before.length + after.length ≤ 7) :
    Hexadecimal (left ++ "::".toList ++ right)
      (Words.encode (before ++ List.replicate (8 - before.length - after.length) 0 ++ after))

/-- Groups, or a dotted address behind the opening that marks it as a mapped one. -/
inductive Written : List Char → List UInt8 → Prop
  | mapped {opening dotted : List Char} {a : Ipv4}
    (h : opening.map Char.toLower = "::ffff:".toList) (ha : Ipv4.Written dotted a) :
    Written (opening ++ dotted) (List.replicate 10 0 ++ [0xff, 0xff] ++ a.bytes)
  | hexadecimal {text : List Char} {bytes : List UInt8} (h : Hexadecimal text bytes) :
    Written text bytes

theorem eq_of_bytes {a a' : Ipv6} (h : a.bytes = a'.bytes) : a = a' := by
  cases a
  cases a'
  congr

theorem unbracket_eq_iff {text body : List Char} :
    unbracket text = body ↔ Unbracketed text body := by
  unfold unbracket
  split
  next rest =>
    by_cases hlast : rest.getLast? = some ']'
    · have hrest : rest.dropLast ++ [']'] = rest := List.dropLast_append_getLast? ']' hlast
      rw [if_pos hlast]
      constructor
      · rintro rfl
        exact Or.inl (congrArg _ hrest.symm)
      · rintro (h | ⟨-, hnot⟩)
        · rw [(List.cons.inj h).2, List.dropLast_concat]
        · exact absurd (congrArg _ hrest.symm) (hnot rest.dropLast)
    · have hnot (inner : List Char) : '[' :: rest ≠ '[' :: (inner ++ [']']) := fun h =>
        hlast (by rw [(List.cons.inj h).2, List.getLast?_concat])
      rw [if_neg hlast]
      constructor
      · rintro rfl
        exact Or.inr ⟨rfl, hnot⟩
      · rintro (h | ⟨rfl, -⟩)
        · exact absurd h (hnot body)
        · rfl
  next hbracket =>
    constructor
    · rintro rfl
      exact Or.inr ⟨rfl, fun inner => hbracket _⟩
    · rintro (h | ⟨rfl, -⟩)
      · exact absurd h (hbracket _)
      · rfl

theorem groups?_eq_some_iff {text : List Char} {groups : List (BitVec 16)} :
    groups? text = some groups ↔ Ip.Groups text groups := by
  have hmapM {pieces : List (List Char)} :
      pieces.mapM Ip.group? = some groups ↔ List.Forall₂ Ip.Group pieces groups := by
    rw [mapM_eq_some_iff]
    simp only [Ip.group?_eq_some_iff]
  rw [groups?]
  constructor
  · intro h
    split at h
    next htext =>
      cases h
      exact ⟨[], htext, .nil⟩
    next => exact ⟨_, (Ip.intercalate_fields ':' text).symm, hmapM.1 h⟩
  · rintro ⟨pieces, rfl, hpieces⟩
    cases hpieces with
    | nil => rfl
    | @cons piece group pieces groups hpiece hrest =>
      have hall := List.Forall₂.cons hpiece hrest
      have hfields := Ip.fields_intercalate (List.cons_ne_nil piece pieces)
        (forall_mem_of_forall₂ hall fun _ _ hgroup => hgroup.not_mem_colon)
      have hne : [':'].intercalate (piece :: pieces) ≠ [] := by
        intro hnil
        rw [hnil] at hfields
        exact hpiece.ne_nil (List.cons.inj hfields).1.symm
      rw [if_neg hne, hfields]
      exact hmapM.2 hall

theorem hexadecimal_of_ofHalves? {text : List Char} {a : Ipv6}
    (h : ofHalves? (Ip.doubleColonFields text) = some a) : Hexadecimal text a.bytes := by
  have htext := Ip.intercalate_doubleColonFields text
  unfold ofHalves? at h
  split at h
  next whole hfields =>
    simp only [Option.bind_eq_bind, Option.bind_eq_some_iff] at h
    obtain ⟨groups, hgroups, h⟩ := h
    split at h
    next hsize =>
      rw [hfields, List.intercalate_singleton] at htext
      cases h
      exact htext ▸ .whole (groups?_eq_some_iff.1 hgroups) hsize
    next => cases h
  next left right hfields =>
    simp only [Option.bind_eq_bind, Option.bind_eq_some_iff] at h
    obtain ⟨before, hbefore, after, hafter, h⟩ := h
    split at h
    next hsize =>
      rw [hfields, List.intercalate_cons_cons, List.intercalate_singleton] at htext
      cases h
      exact htext ▸ .compressed (groups?_eq_some_iff.1 hbefore) (groups?_eq_some_iff.1 hafter) hsize
    next => cases h
  next => cases h

theorem Hexadecimal.ofHalves? {text : List Char} {a : Ipv6} (h : Hexadecimal text a.bytes) :
    ofHalves? (Ip.doubleColonFields text) = some a := by
  have hempty : Ip.doubleColonFields [] = [[]] := rfl
  generalize hbytes : a.bytes = bytes at h
  cases h with
  | @whole text groups hgroups hsize =>
    have hfields := hgroups.doubleColonFields hempty
    rw [List.append_nil] at hfields
    simp only [hfields, Ipv6.ofHalves?, groups?_eq_some_iff.2 hgroups, Option.bind_eq_bind,
      Option.bind_some, dif_pos hsize]
    exact congrArg some (eq_of_bytes hbytes.symm)
  | @compressed left right before after hleft hright hsize =>
    have hrest := hright.doubleColonFields hempty
    rw [List.append_nil] at hrest
    have hcolons : Ip.doubleColonFields (':' :: ':' :: right) = [[], right] := by
      rw [Ip.doubleColonFields, if_pos ⟨rfl, rfl⟩, hrest]
    have hfields : Ip.doubleColonFields (left ++ "::".toList ++ right) = [left, right] := by
      rw [List.append_assoc]
      exact hleft.doubleColonFields hcolons
    simp only [hfields, Ipv6.ofHalves?, groups?_eq_some_iff.2 hleft,
      groups?_eq_some_iff.2 hright, Option.bind_eq_bind, Option.bind_some, dif_pos hsize]
    exact congrArg some (eq_of_bytes hbytes.symm)

theorem Hexadecimal.not_mem {text : List Char} {bytes : List UInt8} (h : Hexadecimal text bytes)
    {c : Char} (hcolon : c ≠ ':') (hc : c.toLower ∉ Ip.digitCharacters) : c ∉ text := by
  cases h with
  | whole hgroups => exact hgroups.not_mem hcolon hc
  | compressed hleft hright =>
    have hleft := hleft.not_mem hcolon hc
    have hright := hright.not_mem hcolon hc
    simp [hleft, hright, hcolon]

theorem Hexadecimal.colon_mem {text : List Char} {bytes : List UInt8} (h : Hexadecimal text bytes) :
    ':' ∈ text := by
  cases h with
  | whole hgroups hsize =>
    refine Classical.byContradiction fun hcolon => ?_
    obtain ⟨pieces, rfl, hpieces⟩ := hgroups
    have hlength := hpieces.length_eq.trans hsize
    have hfields := Ip.fields_intercalate (List.ne_nil_of_length_pos (by omega))
      (forall_mem_of_forall₂ hpieces fun _ _ hgroup => hgroup.not_mem_colon)
    rw [← hfields, Ip.fields_of_not_mem hcolon] at hlength
    cases hlength
  | compressed => exact List.mem_append_left _ (List.mem_append_right _ List.mem_cons_self)

theorem mappedPart?_of_not_mem {text : List Char} (h : '.' ∉ text) : mappedPart? text = none := by
  have hfields : Ip.fields '.' (text.drop 7) = [text.drop 7] :=
    Ip.fields_of_not_mem fun hmem => h (List.mem_of_mem_drop hmem)
  rw [mappedPart?, hfields]
  exact if_neg fun hcond => absurd hcond.2.1 (by simp)

theorem mappedPart?_append {opening dotted : List Char} {a : Ipv4}
    (h : opening.map Char.toLower = "::ffff:".toList) (ha : Ipv4.Written dotted a) :
    mappedPart? (opening ++ dotted) = some dotted := by
  have hlength : opening.length = 7 := by
    rw [← List.length_map (f := Char.toLower), h]
    rfl
  have hoctets := ha.fields
  rw [mappedPart?, ← hlength, List.take_left, List.drop_left]
  exact if_pos ⟨h, hoctets.length_eq.trans a.size_eq,
    forall_mem_of_forall₂ hoctets fun _ _ hoctet => hoctet.isOctetText⟩

theorem eq_append_of_mappedPart? {text dotted : List Char} (h : mappedPart? text = some dotted) :
    ∃ opening, text = opening ++ dotted ∧ opening.map Char.toLower = "::ffff:".toList := by
  rw [mappedPart?] at h
  split at h
  next hcond =>
    cases h
    exact ⟨text.take 7, (List.take_append_drop 7 text).symm, hcond.1⟩
  next => cases h

theorem parse_eq_ok_iff {text : String} {a : Ipv6} :
    parse text = .ok a ↔ ∃ body, Unbracketed text.toList body ∧ Written body a.bytes := by
  have hbody := unbracket_eq_iff.1 (rfl : unbracket text.toList = unbracket text.toList)
  rw [parse]
  constructor
  · intro h
    refine ⟨_, hbody, ?_⟩
    split at h
    next dotted hmapped =>
      obtain ⟨opening, hsplit, hopening⟩ := eq_append_of_mappedPart? hmapped
      cases hparse : Ipv4.parse (String.ofList dotted) with
      | error e =>
        rw [hparse] at h
        cases h
      | ok found =>
        rw [hparse] at h
        cases h
        have hdotted := Ipv4.parse_eq_ok_iff.1 hparse
        rw [String.toList_ofList] at hdotted
        exact hsplit ▸ .mapped hopening hdotted
    next =>
      split at h
      next found hfound =>
        cases h
        exact .hexadecimal (hexadecimal_of_ofHalves? hfound)
      next => cases h
  · rintro ⟨body, hbody, h⟩
    rw [unbracket_eq_iff.2 hbody]
    generalize hbytes : a.bytes = bytes at h
    cases h with
    | @mapped opening dotted found hopening hfound =>
      have hparse : Ipv4.parse (String.ofList dotted) = .ok found := by
        rw [Ipv4.parse_eq_ok_iff, String.toList_ofList]
        exact hfound
      simp only [mappedPart?_append hopening hfound, hparse]
      exact congrArg Except.ok (eq_of_bytes hbytes.symm)
    | hexadecimal h =>
      subst hbytes
      simp only [mappedPart?_of_not_mem (h.not_mem (by decide) (by decide)), h.ofHalves?]

theorem parse_error {text : String} {e : Error} (h : parse text = .error e) :
    e = .encode (.ipv6 text) ∨
      ∃ opening dotted, Unbracketed text.toList (opening ++ dotted) ∧
        opening.map Char.toLower = "::ffff:".toList ∧
        e = .encode (.ipv4 (String.ofList dotted)) := by
  have hbody := unbracket_eq_iff.1 (rfl : unbracket text.toList = unbracket text.toList)
  rw [parse] at h
  split at h
  next dotted hmapped =>
    obtain ⟨opening, hsplit, hopening⟩ := eq_append_of_mappedPart? hmapped
    cases hparse : Ipv4.parse (String.ofList dotted) with
    | ok found =>
      rw [hparse] at h
      cases h
    | error e' =>
      rw [hparse] at h
      cases h
      exact Or.inr ⟨opening, dotted, hsplit ▸ hbody, hopening, Ipv4.parse_error hparse⟩
  next =>
    split at h
    next => cases h
    next => exact Or.inl (Except.error.inj h).symm

end Ipv6

/-- Exactly the texts of the grammars are read, as the addresses they stand for; every other text is
refused with an error that names it, or the dotted part behind the opening of a mapped address. -/
theorem IpAddress.parse_accepts_exactly_written (text : String) :
    (∀ a, Ipv4.parse text = .ok a ↔ Ipv4.Written text.toList a) ∧
    (∀ e, Ipv4.parse text = .error e → e = .encode (.ipv4 text)) ∧
    (∀ a, Ipv6.parse text = .ok a ↔
      ∃ body, Ipv6.Unbracketed text.toList body ∧ Ipv6.Written body a.bytes) ∧
    ∀ e, Ipv6.parse text = .error e →
      e = .encode (.ipv6 text) ∨
        ∃ opening dotted, Ipv6.Unbracketed text.toList (opening ++ dotted) ∧
          opening.map Char.toLower = "::ffff:".toList ∧
          e = .encode (.ipv4 (String.ofList dotted)) :=
  ⟨fun _ => Ipv4.parse_eq_ok_iff, fun _ => Ipv4.parse_error, fun _ => Ipv6.parse_eq_ok_iff,
    fun _ => Ipv6.parse_error⟩

end Stun

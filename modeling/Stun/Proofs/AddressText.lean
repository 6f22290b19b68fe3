import Stun.Proofs.AddressGrammar

/-!
# The canonical texts of addresses

The text that is written for an address is one of the grammar, so it reads back as the address. Of
the many texts of an IPv6 address it is the canonical one: lowercase digits, no zeros in front of a
group, and a double colon for the leftmost of the longest runs of two or more zero groups.
-/
namespace Stun

namespace Ip

/-- The lowercase hexadecimal digits of a number, without zeros in front of it. -/
structure Shortest (n : Nat) (text : List Char) : Prop where
  ne_nil : text ≠ []
  digits : ∀ c ∈ text, c ∈ digitCharacters
  leading : text.head? = some '0' → text = ['0']
  value : numeral 16 text = n

theorem idxOf_digitChar : ∀ n < 16,
    Nat.digitChar n ∈ digitCharacters ∧ digitCharacters.idxOf (Nat.digitChar n) = n := by decide

theorem digitChar_idxOf : ∀ c ∈ digitCharacters,
    Nat.digitChar (digitCharacters.idxOf c) = c := forall_mem_of_all (by decide)

/-- Digits in a given number of places are determined by the number they stand for. -/
theorem eq_of_numeral_eq {digits digits' : List Char} (h : ∀ c ∈ digits, c ∈ digitCharacters)
    (h' : ∀ c ∈ digits', c ∈ digitCharacters) (hlen : digits.length = digits'.length)
    (hvalue : numeral 16 digits = numeral 16 digits') : digits = digits' := by
  induction digits using List.reverseRecOn generalizing digits' with
  | nil => exact (List.length_eq_zero_iff.1 hlen.symm).symm
  | append_singleton init c ih =>
    obtain rfl | ⟨init', c', rfl⟩ := digits'.eq_nil_or_concat
    · simp at hlen
    · rw [List.concat_eq_append] at *
      rw [List.forall_mem_append, List.forall_mem_singleton] at h h'
      rw [numeral_concat, numeral_concat] at hvalue
      have hlast := idxOf_lt h.2
      have hlast' := idxOf_lt h'.2
      have hc : c = c' := by
        rw [← digitChar_idxOf c h.2, ← digitChar_idxOf c' h'.2]
        exact congrArg Nat.digitChar (by omega)
      rw [hc, ih h.1 h'.1 (by simpa using hlen) (by omega)]

theorem numeral_zeros_append (count : Nat) (digits : List Char) :
    numeral 16 (List.replicate count '0' ++ digits) = numeral 16 digits := by
  induction count with
  | zero => rfl
  | succ count ih => exact ih

theorem digits_of_ge {n : Nat} (hn : 16 ≤ n) :
    Hex.digits n = Hex.digits (n / 16) ++ [Nat.digitChar (n % 16)] :=
  Nat.toDigits_of_base_le (by decide) hn

theorem shortest_digits (n : Nat) : Shortest n (Hex.digits n) := by
  induction n using Nat.strongRecOn with
  | ind n ih =>
    by_cases hn : n < 16
    · obtain ⟨hmem, hidx⟩ := idxOf_digitChar n hn
      rw [Hex.digits, Nat.toDigits_of_lt_base hn]
      refine ⟨List.cons_ne_nil _ _, List.forall_mem_singleton.2 hmem, fun h => ?_, ?_⟩
      · rw [Option.some.inj h]
      · rw [← List.nil_append [Nat.digitChar n], numeral_concat, hidx]
        exact Nat.zero_add n
    · obtain ⟨hne, hdigits, hleading, hvalue⟩ := ih (n / 16) (by omega)
      obtain ⟨hmem, hidx⟩ := idxOf_digitChar (n % 16) (by omega)
      rw [digits_of_ge (by omega)]
      refine ⟨List.append_ne_nil_of_left_ne_nil hne _,
        List.forall_mem_append.2 ⟨hdigits, List.forall_mem_singleton.2 hmem⟩, fun h => ?_, ?_⟩
      · -- The number in front would be zero.
        rw [List.head?_append_of_ne_nil _ hne] at h
        rw [hleading h] at hvalue
        have hzero : numeral 16 ['0'] = 0 := rfl
        omega
      · rw [numeral_concat, hvalue, hidx]
        omega

theorem Shortest.eq_digits {n : Nat} {text : List Char} (h : Shortest n text) :
    text = Hex.digits n := by
  induction text using List.reverseRecOn generalizing n with
  | nil => exact absurd rfl h.ne_nil
  | append_singleton init c ih =>
    obtain ⟨-, hdigits, hleading, hvalue⟩ := h
    rw [List.forall_mem_append, List.forall_mem_singleton] at hdigits
    have hlast := idxOf_lt hdigits.2
    rw [numeral_concat] at hvalue
    by_cases hnil : init = []
    · subst hnil
      have hn : digitCharacters.idxOf c = n := by
        rw [← hvalue]
        exact (Nat.zero_add _).symm
      rw [Hex.digits, ← hn, Nat.toDigits_of_lt_base hlast, digitChar_idxOf c hdigits.2,
        List.nil_append]
    · have hhead : init.head? ≠ some '0' := by
        intro h
        have hlength := congrArg List.length
          (hleading ((List.head?_append_of_ne_nil _ hnil).trans h))
        rw [List.length_append] at hlength
        exact hnil (List.length_eq_zero_iff.1 (by simpa using hlength))
      have hinit := ih ⟨hnil, hdigits.1, fun h => absurd h hhead, rfl⟩
      have hpos : numeral 16 init ≠ 0 := by
        intro hzero
        rw [hinit, hzero] at hhead
        exact hhead rfl
      have hdiv : n / 16 = numeral 16 init := by omega
      have hmod : n % 16 = digitCharacters.idxOf c := by omega
      rw [digits_of_ge (by omega), hdiv, hmod, digitChar_idxOf c hdigits.2, ← hinit]

theorem toLower_of_mem : ∀ c ∈ digitCharacters, c.toLower = c := forall_mem_of_all (by decide)

theorem group_digits (w : BitVec 16) : Group (Hex.digits w.toNat) w := by
  obtain ⟨hne, hdigits, -, hvalue⟩ := shortest_digits w.toNat
  have hlower : (Hex.digits w.toNat).map Char.toLower = Hex.digits w.toNat :=
    (List.map_congr_left fun c hc => toLower_of_mem c (hdigits c hc)).trans (List.map_id _)
  refine ⟨List.length_pos_of_ne_nil hne, ?_, fun c hc => ?_, ?_⟩
  · exact (Nat.length_toDigits_le_iff (by decide) (by decide)).2 w.isLt
  · rw [toLower_of_mem c (hdigits c hc)]
    exact hdigits c hc
  · rw [hlower, hvalue]

theorem octet_toDigits (b : UInt8) : Octet (Nat.toDigits 10 b.toNat) b := by
  have hb : b.toNat < 256 := b.toNat_lt
  have hdigits : ∀ c ∈ Nat.toDigits 10 b.toNat, c ∈ digitCharacters.take 10 := fun c hc =>
    isDigit_iff.1 (Nat.isDigit_of_mem_toDigits (by decide) (by decide) hc)
  refine ⟨Nat.length_toDigits_pos, ?_, hdigits, ?_⟩
  · exact (Nat.length_toDigits_le_iff (by decide) (by decide)).2 (by omega)
  · rw [← decimal_eq_numeral hdigits]
    exact Nat.ofDigitChars_ten_toDigits

end Ip

namespace Ipv4

theorem toList_format (bytes : List UInt8) :
    (format bytes).toList = ['.'].intercalate (bytes.map fun b => Nat.toDigits 10 b.toNat) := by
  rw [format, String.toList_intercalate, List.map_map]
  congr 1
  exact List.map_congr_left fun b _ => Nat.toList_repr

theorem written_text (a : Ipv4) : Written a.text.toList a := by
  refine ⟨_, toList_format a.bytes, ?_⟩
  rw [List.forall₂_map_left_iff, List.forall₂_same]
  exact fun b _ => Ip.octet_toDigits b

theorem parse_text (a : Ipv4) : parse a.text = .ok a := parse_eq_ok_iff.2 a.written_text

theorem Written.colon_not_mem {text : List Char} {a : Ipv4} (h : Written text a) : ':' ∉ text := by
  obtain ⟨fields, rfl, hfields⟩ := h
  have hnot : ∀ field ∈ fields, ':' ∉ field := forall_mem_of_forall₂ hfields fun _ _ hoctet hc =>
    absurd (hoctet.digits ':' hc) (by decide)
  intro hcolon
  rcases Ip.mem_intercalate hcolon with hdot | ⟨field, hfield, hc⟩
  · exact absurd hdot (by decide)
  · exact hnot field hfield hc

theorem isIpv6Text_text (a : Ipv4) : IpAddress.isIpv6Text a.text = false :=
  Bool.eq_false_iff.2 fun h => a.written_text.colon_not_mem (List.contains_iff_mem.1 h)

end Ipv4

namespace Ipv6

/-- A maximal run of zeros, with the groups in front of it and behind it. -/
structure ZeroRun (groups before : List Nat) (size : Nat) (after : List Nat) : Prop where
  split : groups = before ++ (List.replicate size 0 ++ after)
  pos : 0 < size
  before_end : before.getLast? ≠ some 0
  after_start : after.head? ≠ some 0

/-- The leftmost of the longest maximal runs. -/
structure ForemostRun (groups before : List Nat) (size : Nat) (after : List Nat) : Prop
    extends ZeroRun groups before size after where
  longest : ∀ before' size' after', ZeroRun groups before' size' after' → size' ≤ size
  leftmost : ∀ before' after', ZeroRun groups before' size after' → before.length ≤ before'.length

/-- Shortest groups with single colons between them. -/
def Joined (groups : List Nat) (text : List Char) : Prop :=
  ∃ pieces, text = [':'].intercalate pieces ∧ List.Forall₂ Ip.Shortest groups pieces

/-- The canonical text of groups. -/
inductive Canonical (groups : List Nat) : List Char → Prop
  | plain {text : List Char} (h : Joined groups text)
    (short : ∀ before size after, ZeroRun groups before size after → size < 2) :
    Canonical groups text
  | compressed {before after : List Nat} {size : Nat} {left right : List Char}
    (run : ForemostRun groups before size after) (long : 2 ≤ size) (hleft : Joined before left)
    (hright : Joined after right) : Canonical groups (left ++ "::".toList ++ right)

theorem replicate_zeroRun_append (groups : List Nat) :
    List.replicate (zeroRun groups) 0 ++ groups.drop (zeroRun groups) = groups := by
  induction groups with
  | nil => rfl
  | cons g groups ih =>
    by_cases hg : g = 0
    · have hrun : zeroRun (g :: groups) = zeroRun groups + 1 := by simp [zeroRun, hg]
      rw [hrun, List.replicate_succ, List.drop_succ_cons, List.cons_append, ih, hg]
    · have hrun : zeroRun (g :: groups) = 0 := by simp [zeroRun, hg]
      rw [hrun]
      rfl

theorem le_zeroRun (size : Nat) (after : List Nat) :
    size ≤ zeroRun (List.replicate size 0 ++ after) := by
  induction size with
  | zero => exact Nat.zero_le _
  | succ size ih =>
    have hrun : zeroRun (List.replicate (size + 1) 0 ++ after) =
        zeroRun (List.replicate size 0 ++ after) + 1 := by simp [zeroRun, List.replicate_succ]
    rw [hrun]
    exact Nat.succ_le_succ ih

/-- The groups are those before the longest run of zeros, the run, and those behind it. -/
theorem longestZeroRun_split (groups : List Nat) :
    groups.take (longestZeroRun groups).1 ++ (List.replicate (longestZeroRun groups).2 0 ++
      groups.drop ((longestZeroRun groups).1 + (longestZeroRun groups).2)) = groups := by
  induction groups with
  | nil => rfl
  | cons g groups ih =>
    simp only [longestZeroRun]
    split
    next =>
      rw [List.take_zero, List.nil_append, Nat.zero_add]
      exact replicate_zeroRun_append (g :: groups)
    next =>
      rw [List.take_succ_cons, Nat.add_right_comm, List.drop_succ_cons, List.cons_append, ih]

/-- No zeros in a row are more than the longest run, nor as many and further to the left. -/
theorem le_longestZeroRun {groups before after : List Nat} {size : Nat}
    (h : groups = before ++ (List.replicate size 0 ++ after)) :
    size ≤ (longestZeroRun groups).2 ∧
      (size = (longestZeroRun groups).2 → (longestZeroRun groups).1 ≤ before.length) := by
  induction groups generalizing before with
  | nil =>
    have hsize : size = 0 := by
      have hlength := congrArg List.length h
      simp only [List.length_nil, List.length_append, List.length_replicate] at hlength
      omega
    exact ⟨Nat.le_of_eq hsize, fun _ => Nat.zero_le _⟩
  | cons g groups ih =>
    simp only [longestZeroRun]
    cases before with
    | nil =>
      have hhere := le_zeroRun size after
      rw [← List.nil_append (List.replicate size 0 ++ after), ← h] at hhere
      split
      next => exact ⟨hhere, fun _ => Nat.zero_le _⟩
      next hlater => exact ⟨by omega, fun heq => by dsimp only at heq; omega⟩
    | cons g' before =>
      obtain ⟨hle, hfirst⟩ := ih (List.cons.inj h).2
      split
      next hhere => exact ⟨Nat.le_trans hle hhere, fun _ => Nat.zero_le _⟩
      next => exact ⟨hle, fun heq => Nat.succ_le_succ (hfirst heq)⟩

theorem foremostRun_longestZeroRun {groups : List Nat} (hpos : 0 < (longestZeroRun groups).2) :
    ForemostRun groups (groups.take (longestZeroRun groups).1) (longestZeroRun groups).2
      (groups.drop ((longestZeroRun groups).1 + (longestZeroRun groups).2)) := by
  have hsplit := longestZeroRun_split groups
  refine ⟨⟨hsplit.symm, hpos, fun hend => ?_, fun hstart => ?_⟩, fun before size after hrun => ?_,
    fun before after hrun => ?_⟩
  -- A zero on either side would make a longer run.
  · have hzero := List.dropLast_append_getLast? 0 hend
    rw [← hzero, List.append_assoc, ← List.append_assoc [0], List.singleton_append,
      ← List.replicate_succ] at hsplit
    exact absurd (le_longestZeroRun hsplit.symm).1 (Nat.not_succ_le_self _)
  · obtain ⟨after, hafter⟩ := List.head?_eq_some_iff.1 hstart
    rw [hafter, ← List.singleton_append, ← List.append_assoc (List.replicate _ 0),
      ← List.replicate_succ'] at hsplit
    exact absurd (le_longestZeroRun hsplit.symm).1 (Nat.not_succ_le_self _)
  · exact (le_longestZeroRun hrun.split).1
  · exact Nat.le_trans (List.length_take_le _ _) ((le_longestZeroRun hrun.split).2 rfl)

theorem ForemostRun.longestZeroRun_eq {groups before after : List Nat} {size : Nat}
    (h : ForemostRun groups before size after) :
    longestZeroRun groups = (before.length, size) := by
  obtain ⟨hle, hfirst⟩ := le_longestZeroRun h.split
  have hforemost := foremostRun_longestZeroRun (Nat.lt_of_lt_of_le h.pos hle)
  have hsize := Nat.le_antisymm hle (h.longest _ _ _ hforemost.toZeroRun)
  have hrun := hforemost.toZeroRun
  rw [← hsize] at hrun
  have hstart := h.leftmost _ _ hrun
  have hbefore := Nat.le_trans hstart (List.length_take_le _ _)
  exact Prod.ext (Nat.le_antisymm (hfirst hsize) hbefore) hsize.symm

theorem toList_joinGroups (groups : List Nat) :
    (joinGroups groups).toList = [':'].intercalate (groups.map Hex.digits) := by
  rw [joinGroups, String.toList_intercalate, List.map_map]
  congr 1
  exact List.map_congr_left fun _ _ => String.toList_ofList

theorem joined_iff {groups : List Nat} {text : List Char} :
    Joined groups text ↔ text = (joinGroups groups).toList := by
  rw [toList_joinGroups]
  constructor
  · rintro ⟨pieces, rfl, hpieces⟩
    have hdigits : List.Forall₂ (fun n piece => Hex.digits n = piece) groups pieces :=
      hpieces.imp fun _ _ h => h.eq_digits.symm
    rw [← List.forall₂_map_left_iff (R := fun piece piece' => piece = piece'),
      List.forall₂_eq_eq_eq] at hdigits
    rw [hdigits]
  · rintro rfl
    refine ⟨_, rfl, ?_⟩
    rw [List.forall₂_map_right_iff, List.forall₂_same]
    exact fun n _ => Ip.shortest_digits n

/-- The canonical text is the one that is written, and no other. -/
theorem canonical_iff {groups : List Nat} {text : List Char} :
    Canonical groups text ↔ text = (formatGroups groups).toList := by
  constructor
  · intro h
    cases h with
    | plain hjoined hshort =>
      have hrun : (longestZeroRun groups).2 < 2 := by
        by_cases hpos : 0 < (longestZeroRun groups).2
        · exact hshort _ _ _ (foremostRun_longestZeroRun hpos).toZeroRun
        · omega
      rw [joined_iff.1 hjoined, formatGroups]
      dsimp only
      rw [if_pos hrun]
    | @compressed before after size left right hrun hlong hleft hright =>
      have hsplit := hrun.split
      have hbefore : groups.take before.length = before := by rw [hsplit, List.take_left]
      have hafter : groups.drop (before.length + size) = after := by
        rw [hsplit, ← List.append_assoc]
        exact List.drop_left' (by simp)
      rw [joined_iff.1 hleft, joined_iff.1 hright, formatGroups, hrun.longestZeroRun_eq]
      dsimp only
      rw [if_neg (Nat.not_lt_of_le hlong), hbefore, hafter, String.toList_append,
        String.toList_append]
  · rintro rfl
    rw [formatGroups]
    dsimp only
    split
    next hshort =>
      exact .plain (joined_iff.2 rfl) fun _ _ _ hrun =>
        Nat.lt_of_le_of_lt (le_longestZeroRun hrun.split).1 hshort
    next hlong =>
      rw [String.toList_append, String.toList_append]
      exact .compressed (foremostRun_longestZeroRun (by omega)) (by omega) (joined_iff.2 rfl)
        (joined_iff.2 rfl)

theorem groups_joinGroups (words : List (BitVec 16)) :
    Ip.Groups (joinGroups (words.map BitVec.toNat)).toList words := by
  refine ⟨_, toList_joinGroups _, ?_⟩
  rw [List.forall₂_map_left_iff, List.forall₂_map_left_iff, List.forall₂_same]
  exact fun w _ => Ip.group_digits w

theorem hexadecimal_formatGroups {words : List (BitVec 16)} (hlength : words.length = 8) :
    Hexadecimal (formatGroups (words.map BitVec.toNat)).toList (Words.encode words) := by
  have hsplit := longestZeroRun_split (words.map BitVec.toNat)
  rw [formatGroups]
  rcases hrun : longestZeroRun (words.map BitVec.toNat) with ⟨start, n⟩
  rw [hrun] at hsplit
  dsimp only at hsplit ⊢
  split
  next => exact .whole (groups_joinGroups words) hlength
  next hlong =>
    rw [← List.map_take, ← List.map_drop] at hsplit ⊢
    have hwords : words.take start ++ List.replicate n 0 ++ words.drop (start + n) = words := by
      have hzeros : List.replicate n 0 = (List.replicate n (0 : BitVec 16)).map BitVec.toNat := by
        rw [List.map_replicate]
        rfl
      rw [hzeros, ← List.map_append, ← List.map_append] at hsplit
      rw [List.append_assoc]
      exact List.map_injective_iff.2 (fun _ _ => BitVec.eq_of_toNat_eq) hsplit
    have hsize := congrArg List.length hwords
    rw [List.length_append, List.length_append, List.length_replicate, hlength] at hsize
    have hmissing : 8 - (words.take start).length - (words.drop (start + n)).length = n := by omega
    have hcompressed := Hexadecimal.compressed (groups_joinGroups (words.take start))
      (groups_joinGroups (words.drop (start + n))) (by omega)
    rw [hmissing, hwords] at hcompressed
    rwa [String.toList_append, String.toList_append]

theorem read_lt (bytes : List UInt8) (offset : Int) : Bytes.read bytes 2 offset < 2 ^ 16 :=
  BigEndian.decode_two_lt _ _

theorem read_cons_cons (high low : UInt8) (bytes : List UInt8) (i : Nat) :
    Bytes.read (high :: low :: bytes) 2 (2 * ((i + 1 : Nat) : Int)) =
      Bytes.read bytes 2 (2 * (i : Int)) := by
  have hbyte (k : Nat) : Bytes.byteAt (high :: low :: bytes) (2 * ((i + 1 : Nat) : Int) + k) =
      Bytes.byteAt bytes (2 * (i : Int) + k) := by
    have hat : (2 * ((i + 1 : Nat) : Int) + k).toNat = (2 * (i : Int) + k).toNat + 2 := by omega
    rw [Bytes.byteAt, Bytes.byteAt, if_neg (by omega), if_neg (by omega), hat, List.getD_cons_succ,
      List.getD_cons_succ]
  rw [Bytes.read, Bytes.read]
  exact congrArg _ (List.map_congr_left fun k _ => hbyte k)

theorem encode_read_words {n : Nat} {bytes : List UInt8} (hsize : bytes.length = 2 * n) :
    Words.encode (((List.range n).map fun (i : Nat) => Bytes.read bytes 2 (2 * i)).map
      (BitVec.ofNat 16)) = bytes := by
  induction n generalizing bytes with
  | zero => rw [List.length_eq_zero_iff.1 hsize]; rfl
  | succ n ih =>
    match bytes, hsize with
    | high :: low :: bytes, hsize =>
      have hrest : bytes.length = 2 * n := by
        rw [List.length_cons, List.length_cons] at hsize
        omega
      have hword : BigEndian.encode 2 (BitVec.ofNat 16 (Bytes.read (high :: low :: bytes) 2
          (2 * ((0 : Nat) : Int)))).toNat = [high, low] := BigEndian.encode_word high low
      have hmap : ((List.range (n + 1)).map fun (i : Nat) =>
            Bytes.read (high :: low :: bytes) 2 (2 * i)) =
          Bytes.read (high :: low :: bytes) 2 (2 * ((0 : Nat) : Int)) ::
            (List.range n).map fun (i : Nat) => Bytes.read bytes 2 (2 * i) := by
        rw [List.range_succ_eq_map, List.map_cons, List.map_map]
        exact congrArg _ (List.map_congr_left fun i _ => read_cons_cons high low bytes i)
      rw [hmap, List.map_cons, Words.encode, List.flatMap_cons, hword]
      exact congrArg (high :: low :: ·) (ih hrest)

theorem exists_words (a : Ipv6) :
    ∃ words : List (BitVec 16), words.length = 8 ∧ Words.encode words = a.bytes ∧
      a.text = formatGroups (words.map BitVec.toNat) := by
  refine ⟨_, ?_, encode_read_words (n := 8) a.size_eq, ?_⟩
  · simp
  · rw [text, format, List.map_map]
    congr 1
    refine (List.map_id _).symm.trans (List.map_congr_left fun n hn => ?_)
    obtain ⟨i, -, rfl⟩ := List.mem_map.1 hn
    exact (Nat.mod_eq_of_lt (read_lt a.bytes _)).symm

theorem hexadecimal_text (a : Ipv6) : Hexadecimal a.text.toList a.bytes := by
  obtain ⟨words, hlength, hbytes, htext⟩ := a.exists_words
  rw [htext, ← hbytes]
  exact hexadecimal_formatGroups hlength

theorem parse_text (a : Ipv6) : parse a.text = .ok a := by
  have hbracket := a.hexadecimal_text.not_mem (c := '[') (by decide) (by decide)
  refine parse_eq_ok_iff.2 ⟨_, Or.inr ⟨rfl, fun inner h => hbracket ?_⟩,
    .hexadecimal a.hexadecimal_text⟩
  rw [h]
  exact List.mem_cons_self

theorem isIpv6Text_text (a : Ipv6) : IpAddress.isIpv6Text a.text = true :=
  List.contains_iff_mem.2 a.hexadecimal_text.colon_mem

end Ipv6

theorem IpAddress.parse_text (a : IpAddress) : parse a.text = .ok a := by
  cases a with
  | v4 a => rw [text, parse, Ipv4.isIpv6Text_text, if_neg Bool.false_ne_true, Ipv4.parse_text]; rfl
  | v6 a => rw [text, parse, Ipv6.isIpv6Text_text, if_pos rfl, Ipv6.parse_text]; rfl

/-- An address is written in its canonical text, which is of its family and reads back as the
address; so two texts that are read are written alike exactly when they stand for the same bytes. -/
theorem IpAddress.text_is_canonical (a : Ipv6) (a' : Ipv4) :
    (Ipv6.parse a.text = .ok a ∧ isIpv6Text a.text = true ∧
      ∃ words : List (BitVec 16), Words.encode words = a.bytes ∧
        ∀ text : String, Ipv6.Canonical (words.map BitVec.toNat) text.toList ↔ text = a.text) ∧
    (Ipv4.parse a'.text = .ok a' ∧ isIpv6Text a'.text = false) ∧
    ∀ s t b b', Ipv6.parse s = .ok b → Ipv6.parse t = .ok b' →
      (b.text = b'.text ↔ b.bytes = b'.bytes) := by
  refine ⟨⟨a.parse_text, a.isIpv6Text_text, ?_⟩, ⟨a'.parse_text, a'.isIpv6Text_text⟩, ?_⟩
  · obtain ⟨words, -, hbytes, htext⟩ := a.exists_words
    refine ⟨words, hbytes, fun text => ?_⟩
    rw [Ipv6.canonical_iff, htext, String.toList_inj]
  · intro s t b b' _ _
    refine ⟨fun h => ?_, fun h => by rw [Ipv6.eq_of_bytes h]⟩
    have hparse := b.parse_text
    rw [h, b'.parse_text] at hparse
    rw [Except.ok.inj hparse]

/-- Of two runs that are equally long the left one is shortened. -/
example : Ipv6.format [0x20, 0x01, 0x0d, 0xb8, 0, 0, 0, 0, 0, 1, 0, 0, 0, 0, 0, 1] =
    "2001:db8::1:0:0:1" := by decide

end Stun

import Stun.Proofs.Scanning

/-!
# The quick check and the parser

The quick check looks at the header and the size only, and the parser looks at both before anything
else. So they agree: what does not pass the quick check is no message under any limit, and what
passes it is a message unless its attributes are at fault.
-/
namespace Stun

/-- The fault lies with the attributes: there are more of them than the limit admits, or one needs
more bytes than are left for it. -/
inductive DecodeError.OfAttributes (limit : Number) : DecodeError → Prop
  | tooMany : OfAttributes limit (.tooManyAttributes limit)
  | truncated (type : BitVec 16) {needed left : Nat} (h : left < needed) :
    OfAttributes limit (.attributeTruncated type needed left)

namespace Header

variable {data : List UInt8}

theorem fits_iff_sound :
    fits data = true ↔ Sound data ∧ headerSize + declared data ≤ data.length := by
  simp only [fits, Bool.and_eq_true, decide_eq_true_eq]
  constructor
  · rintro ⟨⟨⟨hstop, hbits⟩, hcookie⟩, haligned⟩
    have hsize : headerSize ≤ data.length := Nat.le_of_add_right_le hstop
    exact ⟨⟨hsize, (leading_bits_iff hsize).1 hbits, (cookie_iff hsize).1 hcookie, haligned⟩, hstop⟩
  · rintro ⟨hsound, hstop⟩
    exact ⟨⟨⟨hstop, (leading_bits_iff hsound.size_le).2 hsound.leading_bits⟩,
      (cookie_iff hsound.size_le).2 hsound.cookie⟩, hsound.aligned⟩

theorem fits_iff_decode :
    fits data = true ↔ ∃ h, decode data = .ok h ∧ headerSize + h.length.toNat ≤ data.length := by
  rw [fits_iff_sound]
  constructor
  · rintro ⟨hsound, hstop⟩
    exact ⟨read data, decode_of_sound hsound, by rwa [toNat_length_read]⟩
  · rintro ⟨h, hd, hstop⟩
    have hsound := sound_of_decode hd
    rw [decode_of_sound hsound] at hd
    obtain rfl := Except.ok.inj hd
    exact ⟨hsound, by rwa [toNat_length_read] at hstop⟩

theorem exists_fault_of_decode {e : Error} (hd : decode data = .error e) :
    ∃ cause, e = .decode cause ∧ ∀ limit, ¬ cause.OfAttributes limit := by
  simp only [decode, TransactionId.ofBytes] at hd
  split_ifs at hd <;> cases hd <;> exact ⟨_, rfl, fun _ => by rintro ⟨⟩⟩

end Header

namespace Message

variable {limit : Number} {data : List UInt8} {h : Header} {e : Error}

theorem parse_of_not_fits (hfits : Header.fits data = false) :
    ∃ cause, (∀ limit, ¬ cause.OfAttributes limit) ∧
      ∀ limit, parse limit data = .error (.decode cause) := by
  cases hd : Header.decode data with
  | error e =>
    obtain ⟨cause, rfl, hcause⟩ := Header.exists_fault_of_decode hd
    refine ⟨cause, hcause, fun limit => ?_⟩
    simp only [parse, hd, bind, Except.bind]
  | ok h =>
    have hshort : data.length < headerSize + h.length.toNat := by
      refine Nat.lt_of_not_le fun hlong => ?_
      rw [Header.fits_iff_decode.2 ⟨h, hd, hlong⟩] at hfits
      cases hfits
    refine ⟨.truncated (headerSize + h.length.toNat) data.length, fun _ => by rintro ⟨⟩,
      fun limit => ?_⟩
    simp only [parse, hd, bind, Except.bind]
    rw [if_pos hshort]
    rfl

theorem exists_fault_of_parse (hd : Header.decode data = .ok h)
    (hsize : headerSize + h.length.toNat ≤ data.length) (hp : parse limit data = .error e) :
    ∃ cause, e = .decode cause ∧ cause.OfAttributes limit := by
  obtain ⟨found, last, -, hvisited, ⟨-, hok⟩ | ⟨e', hlast, herror⟩⟩ :=
    exists_run_of_decode hd hsize limit
  · rw [hp] at hok
    cases hok
  · obtain rfl : e = e' := Except.error.inj (hp.symm.trans herror)
    -- The last turn was taken inside the message, where there are only these two refusals.
    have htakes := Cursor.takes_turn hvisited.inside (stop_mod_four hd) hsize limit
    rw [hlast] at htakes
    cases htakes with
    | limited => exact ⟨_, rfl, .tooMany⟩
    | truncated hheader s hstart hover =>
      refine ⟨_, rfl, .truncated _ ?_⟩
      simp only [Span.stop, Span.valueStart] at hover ⊢
      omega

/-- The quick check passes what has a header that can be read and as many bytes as it declares. What
it refuses is no message under any limit, for a fault that has nothing to do with attributes. What
passes is a message if and only if its attributes fill the declared length and keep to the limit, and
is refused for a fault of its attributes otherwise. -/
theorem fits_agrees_with_parse (data : List UInt8) :
    (Header.fits data = true ↔
      ∃ h, Header.decode data = .ok h ∧ headerSize + h.length.toNat ≤ data.length) ∧
    (Header.fits data = false → ∃ cause, (∀ limit, ¬ cause.OfAttributes limit) ∧
      ∀ limit, parse limit data = .error (.decode cause)) ∧
    (Header.fits data = true → ∀ limit,
      (∀ e, parse limit data = .error e → ∃ cause, e = .decode cause ∧ cause.OfAttributes limit) ∧
      ((∃ m, parse limit data = .ok m) ↔ ∃ records : List Record,
        (data.drop headerSize).take (Header.declared data) = records.flatMap Record.encode ∧
          limit.Admits records.length)) := by
  refine ⟨Header.fits_iff_decode, parse_of_not_fits, fun hfits limit => ⟨fun e hp => ?_, ?_, ?_⟩⟩
  · obtain ⟨h, hd, hsize⟩ := Header.fits_iff_decode.1 hfits
    exact exists_fault_of_parse hd hsize hp
  · rintro ⟨m, hp⟩
    obtain ⟨records, hwell, hlimit, -⟩ := parse_eq_ok_iff.1 hp
    exact ⟨records, hwell.area, hlimit⟩
  · rintro ⟨records, harea, hlimit⟩
    obtain ⟨hsound, hstop⟩ := Header.fits_iff_sound.1 hfits
    exact ⟨_, parse_eq_ok_iff.2 ⟨records, ⟨hsound, hstop, harea⟩, hlimit, rfl⟩⟩

end Message

end Stun

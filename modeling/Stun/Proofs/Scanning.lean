import Stun.Proofs.Grammar

/-!
# The scan turn by turn

At each place it comes to, the scan takes one turn: it is finished, it refuses the message, or it has
found an attribute and goes on behind it. Behind a sound header that declares no more than there is,
every place is aligned and lies inside the message, and so does the header of an attribute that is
still to come. So that header is never cut, and the turns come to an end after at most one for every
four bytes that are declared.
-/
namespace Stun

structure Span.Inside (stop : Nat) (s : Span) : Prop where
  start_ge : headerSize ≤ s.start
  start_lt : s.start < s.valueStart
  valueStart_le : s.valueStart ≤ s.valueStop
  valueStop_le : s.valueStop ≤ s.stop
  stop_le : s.stop ≤ stop

theorem Span.inside_of_bounds {s : Span} {stop : Nat} (hstart : headerSize ≤ s.start)
    (hstop : s.stop ≤ stop) : s.Inside stop := by
  refine ⟨hstart, ?_, Nat.le_add_right _ _, ?_, hstop⟩
  · exact Nat.lt_add_of_pos_right (by decide)
  · exact Nat.add_le_add_left (le_padded s.length) _

/-- A place of the scan: how many attributes were found before it, its offset in the message, and
the bytes from there on. -/
structure Cursor where
  count : Nat
  offset : Nat
  area : List UInt8

inductive Turn
  | finished
  | refused (e : Error)
  | found (s : Span) (next : Cursor)

namespace Cursor

variable (limit : Number) (stop : Nat)

def scan (c : Cursor) : Except Error (List Span) := Span.scan limit stop c.count c.offset c.area

def turn (c : Cursor) : Turn :=
  if c.area = [] then .finished
  else if limit.reachedBy c.count then .refused (.decode (.tooManyAttributes limit))
  else
    match c.area with
    | t₁ :: t₀ :: l₁ :: l₀ :: rest =>
      let s : Span := ⟨BitVec.ofNat 16 (BigEndian.decode [t₁, t₀]), c.offset,
        BigEndian.decode [l₁, l₀]⟩
      if stop < s.stop then
        .refused (.decode (.attributeTruncated s.type (padded s.length) (stop - s.valueStart)))
      else .found s ⟨c.count + 1, s.stop, rest.drop (padded s.length)⟩
    | _ => .refused (.decode .attributeHeaderCut)

theorem scan_eq_turn (c : Cursor) :
    c.scan limit stop =
      match c.turn limit stop with
      | .finished => .ok []
      | .refused e => .error e
      | .found s next => (next.scan limit stop).map (s :: ·) := by
  obtain ⟨count, offset, area⟩ := c
  unfold scan turn
  fun_cases Span.scan limit stop count offset area with
  | case1 => rfl
  | case2 area hne hlimit => simp only [hne, hlimit, if_true, if_false]
  | case3 hlimit t₁ t₀ l₁ l₀ rest s hover =>
    simp only [reduceCtorEq, hlimit, if_false]
    rw [if_pos hover]
  | case4 hlimit t₁ t₀ l₁ l₀ rest s hroom =>
    simp only [reduceCtorEq, hlimit, if_false]
    rw [if_neg hroom]
  | case5 area hne hlimit hshort => simp only [hne, hlimit, if_false, Bool.false_eq_true]

variable {limit stop} {data : List UInt8} {c next last : Cursor} {s : Span} {found : List Span}

theorem length_area_lt (h : c.turn limit stop = .found s next) :
    next.area.length < c.area.length := by
  unfold turn at h
  split at h
  next => cases h
  next =>
    split at h
    next => cases h
    next =>
      split at h
      next t₁ t₀ l₁ l₀ rest harea =>
        dsimp only at h
        split at h
        next => cases h
        next =>
          cases h
          rw [harea]
          simp only [List.length_drop, List.length_cons]
          omega
      next => cases h

/-- The turns that lead from one place to another, and the spans they find. -/
inductive Run (limit : Number) (stop : Nat) : Cursor → List Span → Cursor → Prop
  | stay (c : Cursor) : Run limit stop c [] c
  | step {c next last : Cursor} {s : Span} {found : List Span}
    (turn : c.turn limit stop = .found s next) (rest : Run limit stop next found last) :
    Run limit stop c (s :: found) last

theorem exists_run (limit : Number) (stop : Nat) (c : Cursor) :
    ∃ found last, Run limit stop c found last ∧
      (last.turn limit stop = .finished ∧ c.scan limit stop = .ok found ∨
        ∃ e, last.turn limit stop = .refused e ∧ c.scan limit stop = .error e) := by
  -- The bytes in front of the cursor become fewer with every turn.
  induction hn : c.area.length using Nat.strongRecOn generalizing c with
  | ind n ih =>
    have hscan := scan_eq_turn limit stop c
    cases hturn : c.turn limit stop with
    | finished =>
      rw [hturn] at hscan
      exact ⟨[], c, .stay c, Or.inl ⟨hturn, hscan⟩⟩
    | refused e =>
      rw [hturn] at hscan
      exact ⟨[], c, .stay c, Or.inr ⟨e, hturn, hscan⟩⟩
    | found s next =>
      rw [hturn] at hscan
      obtain ⟨found, last, hrun, hend⟩ := ih _ (hn ▸ length_area_lt hturn) next rfl
      refine ⟨s :: found, last, .step hturn hrun, ?_⟩
      rcases hend with ⟨hlast, hrest⟩ | ⟨e, hlast, hrest⟩
      · exact Or.inl ⟨hlast, hscan.trans (congrArg (Except.map (s :: ·)) hrest)⟩
      · exact Or.inr ⟨e, hlast, hscan.trans (congrArg (Except.map (s :: ·)) hrest)⟩

/-- The cursor stands at a multiple of four behind the header, with what the message has from there
on in front of it. -/
structure Inside (data : List UInt8) (stop : Nat) (c : Cursor) : Prop where
  aligned : c.offset % 4 = 0
  offset_ge : headerSize ≤ c.offset
  offset_le : c.offset ≤ stop
  area_eq : c.area = (data.take stop).drop c.offset

theorem Inside.length_area (hc : c.Inside data stop) (hsize : stop ≤ data.length) :
    c.area.length = stop - c.offset := by
  rw [hc.area_eq, List.length_drop, List.length_take, Nat.min_eq_left hsize]

theorem Inside.header_le (hc : c.Inside data stop) (hstop : stop % 4 = 0) (hlt : c.offset < stop) :
    c.offset + 4 ≤ stop := by
  have := hc.aligned
  omega

theorem Inside.behind (hc : c.Inside data stop) {t₁ t₀ l₁ l₀ : UInt8} {rest : List UInt8}
    (harea : c.area = t₁ :: t₀ :: l₁ :: l₀ :: rest) {n : Nat}
    (hroom : c.offset + 4 + padded n ≤ stop) :
    Inside data stop ⟨c.count + 1, c.offset + 4 + padded n, rest.drop (padded n)⟩ := by
  have haligned := hc.aligned
  have hstart := hc.offset_ge
  have hpadded := padded_mod_four n
  refine ⟨by dsimp only; omega, by dsimp only; omega, hroom, ?_⟩
  have hdrop := congrArg (List.drop (4 + padded n)) (harea.symm.trans hc.area_eq)
  rw [List.drop_drop, ← Nat.add_assoc, Nat.add_comm 4] at hdrop
  exact hdrop

/-- All that a turn can be at a place inside the message. -/
inductive Takes (data : List UInt8) (limit : Number) (stop : Nat) (c : Cursor) : Turn → Prop
  | finished (offset_eq : c.offset = stop) : Takes data limit stop c .finished
  | limited (header_le : c.offset + 4 ≤ stop) (reached : limit.reachedBy c.count = true) :
    Takes data limit stop c (.refused (.decode (.tooManyAttributes limit)))
  | truncated (header_le : c.offset + 4 ≤ stop) (s : Span) (start_eq : s.start = c.offset)
    (stop_lt : stop < s.stop) :
    Takes data limit stop c
      (.refused (.decode (.attributeTruncated s.type (padded s.length) (stop - s.valueStart))))
  | found (s : Span) (next : Cursor) (span : s.Inside stop) (inside : next.Inside data stop)
    (advance : c.offset + 4 ≤ next.offset) : Takes data limit stop c (.found s next)

theorem takes_turn (hc : c.Inside data stop) (hstop : stop % 4 = 0) (hsize : stop ≤ data.length)
    (limit : Number) : Takes data limit stop c (c.turn limit stop) := by
  have hlength := hc.length_area hsize
  have hoffset := hc.offset_le
  unfold turn
  split
  next hempty =>
    rw [hempty, List.length_nil] at hlength
    exact .finished (by omega)
  next hne =>
    have hpos := List.length_pos_iff.2 hne
    have hheader := hc.header_le hstop (by omega)
    split
    next hreached => exact .limited hheader hreached
    next =>
      split
      next t₁ t₀ l₁ l₀ rest harea =>
        dsimp only
        split
        next hover => exact .truncated hheader _ rfl hover
        next hroom =>
          have hroom' := Nat.le_of_not_lt hroom
          exact .found _ _ (Span.inside_of_bounds hc.offset_ge hroom')
            (hc.behind harea hroom') (Nat.le_add_right _ _)
      next hshort =>
        -- There are four bytes at least, so the header cannot be cut.
        rcases harea : c.area with _ | ⟨t₁, _ | ⟨t₀, _ | ⟨l₁, _ | ⟨l₀, rest⟩⟩⟩⟩
        case cons.cons.cons.cons => exact absurd harea (hshort t₁ t₀ l₁ l₀ rest)
        all_goals
          rw [harea] at hlength
          simp only [List.length_nil, List.length_cons] at hlength
          omega

/-- Wherever the turns lead, the cursor has stayed inside the message, and so have the spans that
were found, at four bytes or more for each of them. -/
theorem Run.inside (hrun : Run limit stop c found last) (hc : c.Inside data stop)
    (hstop : stop % 4 = 0) (hsize : stop ≤ data.length) :
    last.Inside data stop ∧ c.offset + 4 * found.length ≤ last.offset ∧
      ∀ s ∈ found, s.Inside stop := by
  induction hrun with
  | stay c => exact ⟨hc, Nat.le_refl _, List.forall_mem_nil _⟩
  | @step c next last s found hturn _ ih =>
    have htakes := takes_turn hc hstop hsize limit
    rw [hturn] at htakes
    cases htakes with
    | found _ _ hspan hinside hadvance =>
      obtain ⟨hlast, hoffset, hfound⟩ := ih hinside
      refine ⟨hlast, ?_, List.forall_mem_cons.2 ⟨hspan, hfound⟩⟩
      rw [List.length_cons]
      omega

/-- What holds of a place of the scan, the turns so far having found certain spans. -/
structure Visited (data : List UInt8) (limit : Number) (stop : Nat) (found : List Span)
    (c : Cursor) : Prop where
  inside : c.Inside data stop
  found_inside : ∀ s ∈ found, s.Inside stop
  length_le : headerSize + 4 * found.length ≤ c.offset
  finished_iff : c.turn limit stop = .finished ↔ c.offset = stop
  header_le : c.offset < stop → c.offset + 4 ≤ stop
  uncut : c.turn limit stop ≠ .refused (.decode .attributeHeaderCut)
  advance : ∀ s next, c.turn limit stop = .found s next → c.offset + 4 ≤ next.offset

theorem Inside.finished_iff (hc : c.Inside data stop) (hstop : stop % 4 = 0)
    (hsize : stop ≤ data.length) : c.turn limit stop = .finished ↔ c.offset = stop := by
  have htakes := takes_turn hc hstop hsize limit
  constructor
  · intro hturn
    rw [hturn] at htakes
    cases htakes with
    | finished heq => exact heq
  · intro heq
    cases hturn : c.turn limit stop with
    | finished => rfl
    | refused e =>
      rw [hturn] at htakes
      cases htakes <;> omega
    | found s next =>
      rw [hturn] at htakes
      cases htakes with
      | found _ _ _ hinside _ =>
        have := hinside.offset_le
        omega

theorem Run.visited (hrun : Run limit stop c found last) (hc : c.Inside data stop)
    (hstop : stop % 4 = 0) (hsize : stop ≤ data.length) : Visited data limit stop found last := by
  obtain ⟨hlast, hoffset, hfound⟩ := hrun.inside hc hstop hsize
  have hstart := hc.offset_ge
  have htakes := takes_turn hlast hstop hsize limit
  refine ⟨hlast, hfound, by omega, hlast.finished_iff hstop hsize, hlast.header_le hstop, ?_, ?_⟩
  · intro hturn
    rw [hturn] at htakes
    cases htakes
  · intro s next hturn
    rw [hturn] at htakes
    cases htakes with
    | found _ _ _ _ hadvance => exact hadvance

def first (data : List UInt8) (stop : Nat) : Cursor :=
  ⟨0, headerSize, (data.take stop).drop headerSize⟩

theorem inside_first (data : List UInt8) (n : Nat) :
    (first data (headerSize + n)).Inside data (headerSize + n) := by
  have haligned : headerSize % 4 = 0 := by decide
  exact ⟨haligned, Nat.le_refl _, Nat.le_add_right _ _, rfl⟩

end Cursor

namespace Message

open Cursor

variable {limit : Number} {data : List UInt8} {h : Header} {m : Message}

theorem stop_mod_four (hd : Header.decode data = .ok h) :
    (headerSize + h.length.toNat) % 4 = 0 := by
  have hsound := Header.sound_of_decode hd
  rw [Header.decode_of_sound hsound] at hd
  obtain rfl := Except.ok.inj hd
  have haligned := hsound.aligned
  rw [Header.toNat_length_read, headerSize]
  omega

theorem exists_run_of_decode (hd : Header.decode data = .ok h)
    (hsize : headerSize + h.length.toNat ≤ data.length) (limit : Number) :
    ∃ found last, Run limit (headerSize + h.length.toNat)
        (first data (headerSize + h.length.toNat)) found last ∧
      Visited data limit (headerSize + h.length.toNat) found last ∧
      (last.turn limit (headerSize + h.length.toNat) = .finished ∧
          parse limit data = .ok ⟨(data.take (headerSize + h.length.toNat)).toArray, h, found⟩ ∨
        ∃ e, last.turn limit (headerSize + h.length.toNat) = .refused e ∧
          parse limit data = .error e) := by
  obtain ⟨found, last, hrun, hend⟩ := exists_run limit (headerSize + h.length.toNat)
    (first data (headerSize + h.length.toNat))
  have hvisited := hrun.visited (inside_first data _) (stop_mod_four hd) hsize
  refine ⟨found, last, hrun, hvisited, ?_⟩
  have hparse : parse limit data =
      ((first data (headerSize + h.length.toNat)).scan limit (headerSize + h.length.toNat)).map
        fun spans => ⟨(data.take (headerSize + h.length.toNat)).toArray, h, spans⟩ := by
    simp only [parse, hd, bind, Except.bind]
    rw [if_neg (by omega)]
    rfl
  rcases hend with ⟨hlast, hscan⟩ | ⟨e, hlast, hscan⟩
  · rw [hscan] at hparse
    exact Or.inl ⟨hlast, hparse⟩
  · rw [hscan] at hparse
    exact Or.inr ⟨e, hlast, hparse⟩

theorem four_mul_length_spans_le (hp : parse limit data = .ok m) :
    4 * m.spans.length ≤ m.header.length.toNat := by
  obtain ⟨hsound, hstop⟩ := sound_of_parse hp
  have hd := Header.decode_of_sound hsound
  rw [← Header.toNat_length_read] at hstop
  obtain ⟨found, last, -, hvisited, ⟨-, hok⟩ | ⟨e, -, herror⟩⟩ :=
    exists_run_of_decode hd hstop limit
  · obtain rfl := Except.ok.inj (hp.symm.trans hok)
    have hcount := hvisited.length_le
    have hend := hvisited.inside.offset_le
    change 4 * found.length ≤ (Header.read data).length.toNat
    omega
  · rw [hp] at herror
    cases herror

/-- Behind a sound header that declares no more than there is, parsing comes to an end after finitely
many turns, and the last of them says how. Wherever the turns have led, one for each span that was
found, the cursor stands aligned inside the message with the rest of it in front. As long as it has
not come to the end, the next attribute header lies inside too, so it is never cut, and a turn that
goes on moves the cursor by four bytes at least. So there are no more turns and no more spans than
four bytes each have room in the declared length. -/
theorem scan_stays_inside (hd : Header.decode data = .ok h)
    (hsize : headerSize + h.length.toNat ≤ data.length) (limit : Number) :
    let stop := headerSize + h.length.toNat
    (∃ found last, Run limit stop (first data stop) found last ∧
      (last.turn limit stop = .finished ∧
          parse limit data = .ok ⟨(data.take stop).toArray, h, found⟩ ∨
        ∃ e, last.turn limit stop = .refused e ∧ parse limit data = .error e)) ∧
    (∀ found c, Run limit stop (first data stop) found c →
      Visited data limit stop found c ∧ found.length ≤ h.length.toNat / 4 ∧
      (c.offset < stop → found.length < h.length.toNat / 4)) ∧
    h.length.toNat / 4 ≤ 16383 ∧ parse limit data ≠ .error (.decode .attributeHeaderCut) := by
  intro stop
  have hstop : stop % 4 = 0 := stop_mod_four hd
  have hlength := h.length.isLt
  obtain ⟨found, last, hrun, hvisited, hend⟩ := exists_run_of_decode hd hsize limit
  refine ⟨⟨found, last, hrun, hend⟩, fun found c hrun => ?_, by omega, fun hcut => ?_⟩
  · have hvisited := hrun.visited (inside_first data _) hstop hsize
    have hcount := hvisited.length_le
    have hle := hvisited.inside.offset_le
    have hheader := hvisited.header_le
    refine ⟨hvisited, by omega, fun hlt => ?_⟩
    have := hheader hlt
    omega
  · rcases hend with ⟨-, hok⟩ | ⟨e, hlast, herror⟩
    · rw [hcut] at hok
      cases hok
    · rw [hcut] at herror
      cases herror
      exact hvisited.uncut hlast

/-- A name of three bytes, an attribute behind it, and a byte behind the message. -/
def nameAndMore : List UInt8 :=
  Header.encode ⟨.request, 1, 12, ⟨123⟩⟩ ++
    [0x80, 0x22, 0, 3, 0x61, 0x62, 0x63, 0, 0x7a, 0x7a, 0, 0, 0xff]

theorem scan_stays_inside_limited :
    let h : Header := ⟨.request, 1, 12, ⟨123⟩⟩
    let s : Span := ⟨0x8022, 20, 3⟩
    let c : Cursor := ⟨1, 28, [0x7a, 0x7a, 0, 0]⟩
    Header.decode nameAndMore = .ok h ∧ headerSize + h.length.toNat ≤ nameAndMore.length ∧
      Run (.integer 1) 32 (first nameAndMore 32) [s] c ∧
      c.turn (.integer 1) 32 = .refused (.decode (.tooManyAttributes (.integer 1))) ∧
      Visited nameAndMore (.integer 1) 32 [s] c ∧
      parse (.integer 1) nameAndMore ≠ .error (.decode .attributeHeaderCut) := by
  intro h s c
  have hd : Header.decode nameAndMore = .ok h := Header.decode_encode (by decide) _
  have hsize : headerSize + h.length.toNat ≤ nameAndMore.length := by decide
  have hrun : Run (.integer 1) 32 (first nameAndMore 32) [s] c := .step rfl (.stay c)
  obtain ⟨-, hvisited, -, huncut⟩ := scan_stays_inside hd hsize (.integer 1)
  exact ⟨hd, hsize, hrun, rfl, (hvisited _ _ hrun).1, huncut⟩

end Message

end Stun

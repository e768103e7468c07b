import Mathlib.Data.List.Infix

/-!
# Datagrams on a stream

`src/core/tunnel/datagram.go`. A datagram goes over a stream with its length in front, in two
bytes. A reader asks `io.ReadFull` for the two bytes and then for the payload, and `io.ReadFull`
tells an end before the first byte from an end after it. A stream that ends between the length and
the payload is an end before the first byte of the second call, so it is reported as the end of the
datagrams (`cut_reported_as_end`); every other end is reported as what it is.
-/

namespace RemoteDocker.Tunnels.Datagram

/-- `MaxDatagram`. -/
def maxDatagram : Nat := 65535

/-- What `WriteDatagram` writes for a payload within the limit (`datagram.go:21-38`). -/
def frame (payload : List UInt8) : List UInt8 :=
  UInt8.ofNat (payload.length / 256) :: UInt8.ofNat payload.length :: payload

def encode (ds : List (List UInt8)) : List UInt8 := ds.flatMap frame

inductive ReadError where
  /-- `io.EOF`. -/
  | eof
  /-- `io.ErrUnexpectedEOF`. -/
  | unexpectedEOF
  | tooLong (size buffer : Nat)
  deriving DecidableEq

/-- A stream: what is still to come, and how many bytes each of the next reads has to give. A read
after those gives all it is asked for. -/
structure Reader where
  rest : List UInt8
  reads : List Nat

/-- How `io.ReadFull` reports the end, with `got` read before. -/
def endOf (got : List UInt8) : ReadError := if got.isEmpty then .eof else .unexpectedEOF

/-- The loop of `io.ReadFull`, with `got` read and `n` bytes to go. -/
def readLoop (got : List UInt8) (n : Nat) (rest : List UInt8) :
    List Nat → Except ReadError (List UInt8) × Reader
  | [] =>
    if n ≤ rest.length then (.ok (got ++ rest.take n), ⟨rest.drop n, []⟩)
    else (.error (endOf (got ++ rest)), ⟨[], []⟩)
  | k :: reads =>
    if n = 0 then (.ok got, ⟨rest, k :: reads⟩)
    else if rest.isEmpty then (.error (endOf got), ⟨[], reads⟩)
    else
      let part := rest.take (min k n)
      readLoop (got ++ part) (n - part.length) (rest.drop part.length) reads

def readFull (n : Nat) (r : Reader) : Except ReadError (List UInt8) × Reader :=
  readLoop [] n r.rest r.reads

/-- `binary.BigEndian.Uint16`. -/
def sizeOf : List UInt8 → Nat
  | [high, low] => high.toNat * 256 + low.toNat
  | _ => 0

/-- `ReadDatagram`, into a buffer of `buffer` bytes (`datagram.go:46-60`). -/
def readDatagram (buffer : Nat) (r : Reader) : Except ReadError (List UInt8) × Reader :=
  match readFull 2 r with
  | (.error err, r) => (.error err, r)
  | (.ok header, r) =>
    if sizeOf header > buffer then (.error (.tooLong (sizeOf header) buffer), r)
    else readFull (sizeOf header) r

/-- What `calls` calls of `ReadDatagram` yield, up to the first error. -/
def readAll (buffer : Nat) : Nat → Reader → List (List UInt8) × Option ReadError
  | 0, _ => ([], none)
  | calls + 1, r =>
    match readDatagram buffer r with
    | (.error err, _) => ([], some err)
    | (.ok d, r) => (d :: (readAll buffer calls r).1, (readAll buffer calls r).2)

/-- The datagrams that are wholly within the first `n` bytes of their encoding. -/
def contained : List (List UInt8) → Nat → List (List UInt8)
  | [], _ => []
  | d :: ds, n =>
    if (frame d).length ≤ n then d :: contained ds (n - (frame d).length) else []

/-- How many bytes of the next datagram are. -/
def begun : List (List UInt8) → Nat → Nat
  | [], n => n
  | d :: ds, n => if (frame d).length ≤ n then begun ds (n - (frame d).length) else n

section

variable {r : Reader} {n buffer : Nat} {d : List UInt8}

private theorem readLoop_of_le (got rest : List UInt8) {reads : List Nat} (h : n ≤ rest.length) :
    ∃ reads', readLoop got n rest reads = (.ok (got ++ rest.take n), ⟨rest.drop n, reads'⟩) := by
  induction reads generalizing got n rest with
  | nil => exact ⟨[], by simp [readLoop, h]⟩
  | cons k reads ih =>
    by_cases hn : n = 0
    · exact ⟨k :: reads, by simp [readLoop, hn]⟩
    · have hrest : rest ≠ [] := by
        rintro rfl
        simp only [List.length_nil] at h
        omega
      have hlen : (rest.take (min k n)).length = min k n := by
        rw [List.length_take]
        omega
      have hnext : n - min k n ≤ (rest.drop (min k n)).length := by
        rw [List.length_drop]
        omega
      obtain ⟨reads', hreads⟩ := ih (got ++ rest.take (min k n)) _ hnext
      have htake :
          rest.take (min k n) ++ (rest.drop (min k n)).take (n - min k n) = rest.take n := by
        rw [← List.take_add]
        congr 1
        omega
      have hdrop : min k n + (n - min k n) = n := by omega
      refine ⟨reads', ?_⟩
      simp only [readLoop, hn, hrest, List.isEmpty_iff, if_false, hlen, hreads]
      rw [List.append_assoc, htake, List.drop_drop, hdrop]

private theorem readLoop_of_lt (got rest : List UInt8) {reads : List Nat} (h : rest.length < n) :
    (readLoop got n rest reads).1 = .error (endOf (got ++ rest)) := by
  induction reads generalizing got n rest with
  | nil => simp [readLoop, Nat.not_le.mpr h]
  | cons k reads ih =>
    have hn : n ≠ 0 := by omega
    by_cases hrest : rest = []
    · simp [readLoop, hn, hrest]
    · have hlen : (rest.take (min k n)).length = min k rest.length := by
        rw [List.length_take]
        omega
      have hshort : (rest.drop (min k rest.length)).length < n - min k rest.length := by
        rw [List.length_drop]
        omega
      have hpart : rest.take (min k n) = rest.take (min k rest.length) := by
        rw [List.take_eq_take_iff]
        omega
      simp only [readLoop, hn, hrest, List.isEmpty_iff, if_false, hlen, ih _ _ hshort]
      rw [List.append_assoc, hpart, List.take_append_drop]

private theorem readFull_of_le (h : n ≤ r.rest.length) :
    ∃ reads, readFull n r = (.ok (r.rest.take n), ⟨r.rest.drop n, reads⟩) :=
  readLoop_of_le [] r.rest h

private theorem readFull_of_lt (h : r.rest.length < n) : (readFull n r).1 = .error (endOf r.rest) :=
  readLoop_of_lt [] r.rest h

private theorem sizeOf_header (h : d.length ≤ maxDatagram) :
    sizeOf [UInt8.ofNat (d.length / 256), UInt8.ofNat d.length] = d.length := by
  simp only [maxDatagram] at h
  simp only [sizeOf, UInt8.toNat_ofNat']
  omega

/-- The second of the two reads, once the first has the length. -/
theorem readDatagram_of_header {p : List UInt8} (hd : d.length ≤ maxDatagram)
    (hb : d.length ≤ buffer)
    (hr : r.rest = UInt8.ofNat (d.length / 256) :: UInt8.ofNat d.length :: p) :
    ∃ reads, readDatagram buffer r = readFull d.length ⟨p, reads⟩ := by
  obtain ⟨reads, hheader⟩ :
      ∃ reads, readFull 2 r = (.ok (r.rest.take 2), ⟨r.rest.drop 2, reads⟩) := by
    apply readFull_of_le
    simp [hr]
  refine ⟨reads, ?_⟩
  have htake : r.rest.take 2 = [UInt8.ofNat (d.length / 256), UInt8.ofNat d.length] := by
    rw [hr]
    rfl
  have hdrop : r.rest.drop 2 = p := by
    rw [hr]
    rfl
  rw [readDatagram, hheader, htake, hdrop]
  simp only [sizeOf_header hd, Nat.not_lt.mpr hb, if_false]

private theorem readDatagram_frame {p : List UInt8} (hd : d.length ≤ maxDatagram)
    (hb : d.length ≤ buffer)
    (hr : r.rest = frame d ++ p) : ∃ reads, readDatagram buffer r = (.ok d, ⟨p, reads⟩) := by
  obtain ⟨reads, hheader⟩ := readDatagram_of_header (p := d ++ p) hd hb hr
  obtain ⟨reads', hpayload⟩ := readFull_of_le (r := ⟨d ++ p, reads⟩) (n := d.length) (by simp)
  exact ⟨reads', by simp [hheader, hpayload]⟩

private theorem readDatagram_of_lt (h : r.rest.length < 2) :
    (readDatagram buffer r).1 = .error (endOf r.rest) := by
  have hheader := readFull_of_lt h
  rw [readDatagram]
  split
  · next err r' heq => simpa [heq] using hheader
  · next header r' heq => simp [heq] at hheader

private theorem endOf_eq (p : List UInt8) :
    endOf p = if p.length = 0 then .eof else .unexpectedEOF := by
  simp [endOf, List.isEmpty_iff]

/-- A stream that ends within a datagram is reported as cut, unless it ends right after the length:
the second read then meets the end before its first byte. -/
theorem readDatagram_cut (hd : d.length ≤ maxDatagram) (hb : d.length ≤ buffer)
    (hp : r.rest <+: frame d) (hlt : r.rest.length < (frame d).length) :
    (readDatagram buffer r).1 = .error
      (if r.rest.length = 0 ∨ r.rest.length = 2 then .eof else .unexpectedEOF) := by
  by_cases hshort : r.rest.length < 2
  · rw [readDatagram_of_lt hshort, endOf_eq]
    simp only [hshort.ne, or_false]
  · obtain ⟨q, hq⟩ : ∃ q, r.rest = UInt8.ofNat (d.length / 256) :: UInt8.ofNat d.length :: q := by
      rcases hrest : r.rest with _ | ⟨a, _ | ⟨b, q⟩⟩
      · simp [hrest] at hshort
      · simp [hrest] at hshort
      · rw [hrest, frame, List.cons_prefix_cons, List.cons_prefix_cons] at hp
        exact ⟨q, by rw [hp.1, hp.2.1]⟩
    obtain ⟨reads, hheader⟩ := readDatagram_of_header hd hb hq
    rw [hq] at hlt
    simp only [frame, List.length_cons] at hlt
    rw [hheader, readFull_of_lt (by simp only; omega), hq, endOf_eq]
    simp

end

section

variable {r : Reader} {d p : List UInt8} {ds : List (List UInt8)} {buffer calls n : Nat}
  {reads : List Nat}

private theorem readAll_of_error {err : ReadError} (h : (readDatagram buffer r).1 = .error err)
    (hcalls : 0 < calls) : readAll buffer calls r = ([], some err) := by
  obtain ⟨calls, rfl⟩ := Nat.exists_eq_succ_of_ne_zero hcalls.ne'
  rw [readAll]
  split
  · next err' r' heq => simpa [heq] using h
  · next d r' heq => simp [heq] at h

private theorem contained_of_le (ds : List (List UInt8)) (h : (frame d).length ≤ n) :
    contained (d :: ds) n = d :: contained ds (n - (frame d).length) ∧
      begun (d :: ds) n = begun ds (n - (frame d).length) := by
  simp [contained, begun, h]

private theorem contained_of_lt (ds : List (List UInt8)) (h : n < (frame d).length) :
    contained (d :: ds) n = [] ∧ begun (d :: ds) n = n := by
  simp [contained, begun, Nat.not_le.mpr h]

/-- The datagrams that a cut stream has whole are read in order. A stream cut right after a length
then ends like one that is not cut. -/
theorem readAll_of_isPrefix (hds : ∀ d ∈ ds, d.length ≤ maxDatagram)
    (hbuf : ∀ d ∈ ds, d.length ≤ buffer) (hp : p <+: encode ds)
    (hcalls : (contained ds p.length).length < calls) :
    readAll buffer calls ⟨p, reads⟩ =
      (contained ds p.length, some (if begun ds p.length = 0 ∨ begun ds p.length = 2 then .eof
        else .unexpectedEOF)) := by
  induction ds generalizing p calls reads with
  | nil =>
    obtain rfl : p = [] := List.prefix_nil.mp hp
    exact readAll_of_error (readDatagram_of_lt (by simp)) hcalls
  | cons d ds ih =>
    rw [List.forall_mem_cons] at hds hbuf
    by_cases hfits : (frame d).length ≤ p.length
    · obtain ⟨q, rfl⟩ : frame d <+: p :=
        List.prefix_of_prefix_length_le (List.prefix_append _ (encode ds)) hp hfits
      have hq : q <+: encode ds := (List.prefix_append_right_inj _).mp hp
      have hrest : (frame d ++ q).length - (frame d).length = q.length := by simp
      obtain ⟨hwhole, hbegun⟩ := contained_of_le ds hfits
      rw [hrest] at hwhole hbegun
      rw [hwhole, List.length_cons] at hcalls
      obtain ⟨calls, rfl⟩ : ∃ k, calls = k + 1 := ⟨calls - 1, by omega⟩
      obtain ⟨reads', hread⟩ := readDatagram_frame (r := ⟨frame d ++ q, reads⟩) hds.1 hbuf.1 rfl
      rw [readAll, hread, hwhole, hbegun]
      simp only [ih hds.2 hbuf.2 hq (Nat.lt_of_succ_lt_succ hcalls)]
    · have hlt := Nat.lt_of_not_le hfits
      have hcutd : p <+: frame d :=
        List.prefix_of_prefix_length_le hp (List.prefix_append _ (encode ds)) hlt.le
      obtain ⟨hwhole, hbegun⟩ := contained_of_lt ds hlt
      rw [hwhole] at hcalls
      rw [hwhole, hbegun]
      exact readAll_of_error (readDatagram_cut hds.1 hbuf.1 hcutd hlt) hcalls

/-- The datagrams that a cut stream has whole are read in order, and the end is told from the cut,
just if the stream is not cut right after a length. -/
theorem datagrams_read (hds : ∀ d ∈ ds, d.length ≤ maxDatagram) (hbuf : ∀ d ∈ ds, d.length ≤ buffer)
    (hp : p <+: encode ds) (hcalls : (contained ds p.length).length < calls) :
    readAll buffer calls ⟨p, reads⟩ =
      (contained ds p.length,
        some (if begun ds p.length = 0 then .eof else .unexpectedEOF)) ↔ begun ds p.length ≠ 2 := by
  rw [readAll_of_isPrefix hds hbuf hp hcalls]
  by_cases hcut : begun ds p.length = 2
  · simp [hcut]
  · simp only [hcut, or_false, ne_eq, not_false_eq_true]

end

/-- Three bytes into the second datagram, over reads of one byte and of none. -/
theorem datagrams_read_cut :
    readAll 8 2 ⟨[0, 1, 7, 0, 2, 8], [1, 0, 1]⟩ = ([[7]], some .unexpectedEOF) :=
  have hp : [0, 1, 7, 0, 2, 8] <+: encode [[7], [8, 9]] := by decide
  (datagrams_read (by decide) (by decide) hp (by decide)).mpr (by decide)

/-- The stream ends within a datagram of one byte, after its length. -/
theorem cut_reported_as_end :
    [0, 1] <+: encode [[7]] ∧ begun [[7]] 2 = 2 ∧
      readAll maxDatagram 1 ⟨[0, 1], []⟩ = ([], some .eof) := by
  decide

end RemoteDocker.Tunnels.Datagram

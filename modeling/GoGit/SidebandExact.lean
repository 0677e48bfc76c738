import GoGit.Sideband

/-! A packet is five bytes longer than the bytes of the message in it. The demuxer allows `Kind.max` bytes for it, the
muxer puts up to `Kind.max - 1` bytes of a message into one packet. -/
namespace GoGit.Sideband

open List

/-- The longest message that is sent as one packet the demuxer takes. -/
def Kind.limit (t : Kind) : ℕ := t.max - (chLen + PktLine.lenSize)

variable (msg : Message)

section Messages

lemma dataOf_append (a b : List Message) : dataOf (a ++ b) = dataOf a ++ dataOf b := by
  induction a with
  | nil => rfl
  | cons msg a ih => cases msg <;> simp [dataOf, ih]

lemma progressOf_append (a b : List Message) : progressOf (a ++ b) = progressOf a ++ progressOf b := by
  induction a with
  | nil => rfl
  | cons msg a ih => cases msg <;> simp [progressOf, ih]

lemma dataOf_pieces (cs : List Bytes) : dataOf (cs.map msg.withPayload) = dataOf [msg.withPayload cs.flatten] := by
  induction cs with
  | nil => cases msg <;> rfl
  | cons c cs ih => cases msg <;> simp_all [dataOf, Message.withPayload]

lemma progressOf_pieces (cs : List Bytes) :
    progressOf (cs.map msg.withPayload) = progressOf [msg.withPayload cs.flatten] := by
  induction cs with
  | nil => cases msg <;> rfl
  | cons c cs ih => cases msg <;> simp_all [progressOf, Message.withPayload]

lemma withPayload_payload : msg.withPayload msg.payload = msg := by cases msg <;> rfl

end Messages

section Muxer

variable {m : Muxer} {p : Bytes}

lemma Muxer.doWrite_ok (h : min m.max p.length < PktLine.maxPayloadSize) :
    m.doWrite msg.channel p = ((min m.max p.length, none),
      { m with w := m.w ++ (msg.withPayload (p.take m.max)).packet }) := by
  have hsz : (if p.length > m.max then m.max else p.length) = min m.max p.length := by
    split_ifs <;> omega
  have htake : p.take (min m.max p.length) = p.take m.max := by
    rw [← take_take, take_length]
  have hlen : (withPayload msg.channel (p.take m.max)).length = min m.max p.length + 1 := by
    simp [withPayload]
  have hlong : ¬ min m.max p.length + 1 > PktLine.maxPayloadSize := by omega
  simp only [doWrite, hsz, htake, PktLine.write, hlen, Nat.add_one_ne_zero, hlong, if_false]
  simp [Message.packet]

lemma Muxer.doWrite_tooLong (ch : Channel) (h : PktLine.maxPayloadSize ≤ min m.max p.length) :
    m.doWrite ch p = ((min m.max p.length, some (.pkt .payloadTooLong)), m) := by
  have hsz : (if p.length > m.max then m.max else p.length) = min m.max p.length := by
    split_ifs <;> omega
  have hlen : (withPayload ch (p.take (min m.max p.length))).length = min m.max p.length + 1 := by
    simp [withPayload]
  have hlong : min m.max p.length + 1 > PktLine.maxPayloadSize := by omega
  simp only [doWrite, hsz, PktLine.write, hlen, Nat.add_one_ne_zero, hlong, if_false, if_true]

lemma Muxer.writeLoop_ok (hmax : 0 < m.max) (msg : Message)
    (hfit : min m.max p.length < PktLine.maxPayloadSize) {fuel wrote : ℕ} (hwrote : wrote ≤ p.length)
    (hfuel : p.length - wrote < fuel) : ∃ cs : List Bytes, m.writeLoop msg.channel p fuel wrote = ((p.length, none),
        { m with w := m.w ++ (cs.map msg.withPayload).flatMap Message.packet }) ∧
      cs.flatten = p.drop wrote ∧ (∀ c ∈ cs, c ≠ [] ∧ c.length ≤ m.max ∧ c.length ≤ p.length) ∧
      (wrote < p.length → (p.drop wrote).take m.max ∈ cs) := by
  induction fuel generalizing wrote m with
  | zero => omega
  | succ fuel ih =>
    rw [writeLoop]
    by_cases hlt : wrote < p.length
    · have hlen : (p.drop wrote).length = p.length - wrote := length_drop
      have hfirst := doWrite_ok msg (show min m.max (p.drop wrote).length < _ by omega)
      set piece := (p.drop wrote).take m.max with hpiece
      set n := min m.max (p.drop wrote).length with hn
      have hpiecelen : piece.length = n := length_take
      obtain ⟨cs, hrun, hflat, hall, -⟩ := @ih
        { m with w := m.w ++ (msg.withPayload piece).packet } hmax hfit (wrote + n) (by omega) (by omega)
      refine ⟨piece :: cs, ?_, ?_, ?_, fun _ => mem_cons_self⟩
      · rw [if_pos hlt, hfirst]
        simp only [hrun]
        simp
      · have hdrop : p.drop (wrote + n) = (p.drop wrote).drop m.max := by
          rw [← drop_drop, hn]
          by_cases hle : m.max ≤ (p.drop wrote).length
          · rw [min_eq_left hle]
          · rw [min_eq_right (by omega), drop_length, drop_eq_nil_of_le (by omega)]
        rw [flatten_cons, hflat, hdrop, take_append_drop]
      · intro c hc
        rcases mem_cons.mp hc with rfl | hc
        · refine ⟨ne_nil_of_length_pos ?_, ?_, ?_⟩ <;> omega
        · exact hall c hc
    · have hend : wrote = p.length := by omega
      refine ⟨[], ?_, ?_, by simp, fun h => absurd h hlt⟩
      · rw [if_neg hlt, hend]
        simp
      · simp [hend]

lemma Muxer.writeChannel_ok (hmax : 0 < m.max) (msg : Message)
    (hfit : min m.max msg.payload.length < PktLine.maxPayloadSize) :
    ∃ packets : List Message, m.writeChannel msg.channel msg.payload =
        ((msg.payload.length, none), { m with w := m.w ++ packets.flatMap Message.packet }) ∧
      dataOf packets = dataOf [msg] ∧ progressOf packets = progressOf [msg] ∧
      (∀ q ∈ packets, q.payload ≠ [] ∧ q.payload.length ≤ m.max ∧ q.payload.length ≤ msg.payload.length) ∧
      (msg.payload ≠ [] → ∃ q ∈ packets, q.payload.length = min m.max msg.payload.length) := by
  obtain ⟨cs, hrun, hflat, hall, hfirst⟩ := writeLoop_ok hmax msg hfit (Nat.zero_le _)
    (show msg.payload.length - 0 < msg.payload.length + 1 by omega)
  rw [drop_zero] at hflat hfirst
  refine ⟨cs.map msg.withPayload, hrun, ?_, ?_, ?_, ?_⟩
  · rw [dataOf_pieces, hflat, withPayload_payload]
  · rw [progressOf_pieces, hflat, withPayload_payload]
  · intro q hq
    obtain ⟨c, hc, rfl⟩ := mem_map.mp hq
    simpa using hall c hc
  · intro hne
    refine ⟨_, mem_map_of_mem (hfirst (length_pos_iff.mpr hne)), ?_⟩
    simp

lemma Muxer.sendAll_ok {msgs : List Message} (hmax : 0 < m.max)
    (hfit : ∀ msg ∈ msgs, min m.max msg.payload.length < PktLine.maxPayloadSize) :
    ∃ packets, m.sendAll msgs = .ok { m with w := m.w ++ packets.flatMap Message.packet } ∧
      dataOf packets = dataOf msgs ∧ progressOf packets = progressOf msgs ∧
      (∀ q ∈ packets, q.payload ≠ [] ∧ q.payload.length ≤ m.max ∧
        ∃ msg ∈ msgs, q.payload.length ≤ msg.payload.length) ∧
      ∀ msg ∈ msgs, msg.payload ≠ [] → ∃ q ∈ packets, q.payload.length = min m.max msg.payload.length := by
  induction msgs generalizing m with
  | nil => exact ⟨[], by simp [sendAll], rfl, rfl, by simp, by simp⟩
  | cons msg msgs ih =>
    obtain ⟨first, hfirst, hdata, hprogress, hall, hlong⟩ :=
      writeChannel_ok hmax msg (hfit msg mem_cons_self)
    obtain ⟨packets, hrun, hdata', hprogress', hall', hlong'⟩ :=
      @ih { m with w := m.w ++ first.flatMap Message.packet } hmax
        fun msg hmsg => hfit msg (mem_cons_of_mem _ hmsg)
    refine ⟨first ++ packets, ?_, ?_, ?_, ?_, ?_⟩
    · rw [sendAll, hfirst]
      simp only [hrun]
      simp
    · rw [dataOf_append, hdata, hdata', ← dataOf_append]
      rfl
    · rw [progressOf_append, hprogress, hprogress', ← progressOf_append]
      rfl
    · intro q hq
      rcases mem_append.mp hq with hq | hq
      · obtain ⟨hne, hmaxle, hle⟩ := hall q hq
        exact ⟨hne, hmaxle, msg, mem_cons_self, hle⟩
      · obtain ⟨hne, hmaxle, msg', hmsg', hle⟩ := hall' q hq
        exact ⟨hne, hmaxle, msg', mem_cons_of_mem _ hmsg', hle⟩
    · intro msg' hmsg' hne
      rcases mem_cons.mp hmsg' with rfl | hmsg'
      · obtain ⟨q, hq, hlen⟩ := hlong hne
        exact ⟨q, mem_append_left _ hq, hlen⟩
      · obtain ⟨q, hq, hlen⟩ := hlong' msg' hmsg' hne
        exact ⟨q, mem_append_right _ hq, hlen⟩

lemma Muxer.sendAll_tooLong {msgs : List Message} (hmax : 0 < m.max) {msg : Message} (hmsg : msg ∈ msgs)
    (hlong : PktLine.maxPayloadSize ≤ min m.max msg.payload.length) {m' : Muxer} : m.sendAll msgs ≠ .ok m' := by
  induction msgs generalizing m with
  | nil => simp at hmsg
  | cons first msgs ih =>
    rw [sendAll]
    by_cases hfit : min m.max first.payload.length < PktLine.maxPayloadSize
    · obtain ⟨packets, hrun, -⟩ := writeChannel_ok hmax first hfit
      rw [hrun]
      refine @ih { m with w := m.w ++ packets.flatMap Message.packet } hmax ?_ hlong
      exact (mem_cons.mp hmsg).resolve_left fun h => by
        subst h
        omega
    · have hpos : 0 < first.payload.length := by
        have : 0 < PktLine.maxPayloadSize := by decide
        omega
      have hfail := @doWrite_tooLong m first.payload first.channel (by omega)
      rw [writeChannel, writeLoop, if_pos hpos, drop_zero, hfail]
      simp

end Muxer

section Demuxer

lemma readLine_packet (hlen : msg.payload.length < PktLine.maxPayloadSize) (tail buffer : Bytes) :
    ∃ buffer', PktLine.readLine (msg.packet ++ tail) buffer =
      (.ok (msg.payload.length + 5, withPayload msg.channel msg.payload), buffer', tail) := by
  have herr : ∀ stale, PktLine.errPrefix.isPrefixOf
      (withPayload msg.channel msg.payload ++ stale) = false := by
    intro stale
    cases msg <;> rfl
  exact PktLine.readLine_write (by simp [withPayload]) (by simpa [withPayload] using hlen) herr tail buffer

def Fits (max : ℕ) (q : Message) : Prop := q.payload ≠ [] ∧ q.payload.length + 5 ≤ max

structure Holds (d : Demuxer) (packets : List Message) (tail D P : Bytes) : Prop where
  stream : d.r = packets.flatMap Message.packet ++ tail
  max_le : d.max ≤ PktLine.maxSize
  fits : ∀ q ∈ packets, Fits d.max q
  data : d.pending ++ dataOf packets = D
  progress : ∃ forwarded, d.progress = some forwarded ∧ forwarded ++ progressOf packets = P

def Ends (max : ℕ) (tail : Bytes) (e : Fault) (rest : Bytes) : Prop :=
  ∀ d : Demuxer, d.r = tail → d.pending = [] → d.max = max →
    ∃ d', d.nextPackData = (.error e, d') ∧ d'.progress = d.progress ∧ d'.r = rest

lemma ends_flush (max : ℕ) (rest : Bytes) : Ends max (PktLine.flushPkt ++ rest) .eof rest := by
  intro d hr hpending hmax
  obtain ⟨buffer', hread⟩ := PktLine.readLine_flush rest d.buffer
  refine ⟨{ d with buffer := buffer', r := rest }, ?_, rfl, rfl⟩
  simp [Demuxer.nextPackData, hpending, hr, hread]

lemma ends_long {max : ℕ} {msg : Message} (hlen : msg.payload.length < PktLine.maxPayloadSize)
    (hlong : max < msg.payload.length + 5) (rest : Bytes) : Ends max (msg.packet ++ rest) .maxPackedExceeded rest := by
  intro d hr hpending hmax
  obtain ⟨buffer', hread⟩ := readLine_packet msg hlen rest d.buffer
  refine ⟨{ d with buffer := buffer', r := rest }, ?_, rfl, rfl⟩
  simp [Demuxer.nextPackData, hpending, hr, hread, hmax, hlong]

variable {d : Demuxer} {packets : List Message} {tail D P rest : Bytes} {e : Fault} {max : ℕ}

def pieces (d : Demuxer) (packets : List Message) : ℕ :=
  packets.length + if d.pending = [] then 0 else 1

lemma Holds.nextPackData (h : Holds d packets tail D P) (hne : pieces d packets ≠ 0) :
    ∃ c d₁ packets₁ D₁, d.nextPackData = (.ok c, d₁) ∧ D = c ++ D₁ ∧ Holds d₁ packets₁ tail D₁ P ∧
      d₁.max = d.max ∧ d₁.pending = [] ∧ packets₁.length < pieces d packets := by
  by_cases hpending : d.pending = []
  · cases packets with
    | nil => simp [pieces, hpending] at hne
    | cons msg packets =>
      obtain ⟨hnonempty, hfit⟩ := h.fits msg mem_cons_self
      have hlen : msg.payload.length < PktLine.maxPayloadSize := by
        have hsum : PktLine.maxPayloadSize + 4 = PktLine.maxSize := rfl
        have := h.max_le
        omega
      obtain ⟨buffer', hread⟩ := readLine_packet msg hlen (packets.flatMap Message.packet ++ tail) d.buffer
      have hstream : d.r = msg.packet ++ (packets.flatMap Message.packet ++ tail) := by
        simp [h.stream]
      have hfits : ∀ q ∈ packets, Fits d.max q := fun q hq => h.fits q (mem_cons_of_mem _ hq)
      have hmax : ¬ d.max < msg.payload.length + 5 := by omega
      have hdata := h.data
      obtain ⟨forwarded, hforwarded, hprogress⟩ := h.progress
      cases msg with
      | data p =>
        refine ⟨p, { d with buffer := buffer', r := packets.flatMap Message.packet ++ tail }, packets,
          dataOf packets, ?_, ?_, ⟨rfl, h.max_le, hfits, by simp [hpending], forwarded, hforwarded, ?_⟩,
          rfl, hpending, by simp [pieces, hpending]⟩
        · simp only [Message.payload] at hread hmax
          simp [Demuxer.nextPackData, hpending, hstream, hread, hmax, withPayload, Message.channel]
        · simpa [hpending, dataOf] using hdata.symm
        · simpa [progressOf] using hprogress
      | progress p =>
        refine ⟨[], { d with
            buffer := buffer', r := packets.flatMap Message.packet ++ tail,
            progress := some (forwarded ++ p) }, packets, D, ?_, rfl,
          ⟨rfl, h.max_le, hfits, ?_, forwarded ++ p, rfl, ?_⟩, rfl, hpending, by simp [pieces, hpending]⟩
        · simp only [Message.payload] at hread hmax
          simp [Demuxer.nextPackData, hpending, hstream, hread, hmax, withPayload, Message.channel,
            packData, progressMessage, hforwarded]
        · simpa [hpending, dataOf] using hdata
        · simpa [progressOf] using hprogress
  · refine ⟨d.pending, { d with pending := [] }, packets, dataOf packets, ?_, h.data.symm,
      ⟨h.stream, h.max_le, h.fits, rfl, h.progress⟩, rfl, rfl, ?_⟩
    · simp [Demuxer.nextPackData, hpending]
    · simp [pieces, hpending]

lemma Holds.doRead (h : Holds d packets tail D P) (hne : pieces d packets ≠ 0) (req : ℕ) :
    ∃ b d₁ packets₁ D₁, d.doRead req = ((b, none), d₁) ∧ D = b ++ D₁ ∧ b.length ≤ req ∧
      Holds d₁ packets₁ tail D₁ P ∧ d₁.max = d.max ∧ (pieces d₁ packets₁ < pieces d packets ∨ b.length = req) := by
  obtain ⟨c, d₁, packets₁, D₁, hnext, hD, h₁, hmax, hpending, hless⟩ := h.nextPackData hne
  rw [Demuxer.doRead, hnext]
  by_cases hlong : c.length > req
  · refine ⟨c.take req, { d₁ with pending := c.drop req }, packets₁, c.drop req ++ D₁, ?_, ?_, ?_,
      ⟨h₁.stream, h₁.max_le, h₁.fits, ?_, h₁.progress⟩, hmax, .inr ?_⟩
    · simp [hlong]
    · rw [hD, ← append_assoc, take_append_drop]
    · simp
    · have := h₁.data
      simp_all
    · simp only [length_take]
      omega
  · refine ⟨c, d₁, packets₁, D₁, ?_, hD, by omega, h₁, hmax, .inl ?_⟩
    · simp [hlong, take_of_length_le (not_lt.mp hlong)]
    · simpa [pieces, hpending] using hless

lemma Holds.readLoop (hE : Ends max tail e rest) {fuel : ℕ} (req : ℕ)
    (h : Holds d packets tail D P) (hmax : d.max = max) (hfuel : pieces d packets < fuel ∨ req = 0 ∧ 0 < fuel) :
    (req ≤ D.length → ∃ d' packets', Demuxer.readLoop fuel req d = ((D.take req, none), d') ∧
      Holds d' packets' tail (D.drop req) P ∧ d'.max = max) ∧
    (D.length < req → ∃ d', Demuxer.readLoop fuel req d = ((D, some e), d') ∧
      d'.progress = some P ∧ d'.r = rest) := by
  induction fuel generalizing d packets D req with
  | zero => omega
  | succ fuel ih =>
    rw [Demuxer.readLoop]
    by_cases hreq : req = 0
    · subst hreq
      exact ⟨fun _ => ⟨d, packets, by simp, by simpa using h, hmax⟩, by simp⟩
    rw [if_neg hreq]
    by_cases hne : pieces d packets = 0
    · -- nothing is pending and no packet is left
      obtain ⟨hnil, hpending⟩ : packets = [] ∧ d.pending = [] := by simpa [pieces] using hne
      subst hnil
      obtain ⟨d', hnext, hprogress, hr⟩ := hE d (by simpa using h.stream) hpending hmax
      obtain ⟨forwarded, hforwarded, hP⟩ := h.progress
      have hD : D = [] := by simpa [hpending, dataOf] using h.data.symm
      subst hD
      refine ⟨fun hle => absurd (Nat.le_zero.mp hle) hreq, fun _ => ⟨d', ?_, ?_, hr⟩⟩
      · simp [Demuxer.doRead, hnext]
      · rw [hprogress, hforwarded, ← hP]
        simp [progressOf]
    · obtain ⟨b, d₁, packets₁, D₁, hread, hD, hble, h₁, hmax₁, hless⟩ := h.doRead hne req
      have hfuel₁ : pieces d₁ packets₁ < fuel ∨ req - b.length = 0 ∧ 0 < fuel := by
        rcases hless with hless | hless <;> omega
      obtain ⟨hsome, hend⟩ := ih (req - b.length) h₁ (hmax₁.trans hmax) hfuel₁
      have hlen : D.length = b.length + D₁.length := by rw [hD, length_append]
      constructor
      · intro hle
        obtain ⟨d', packets', hrun, h', hmax'⟩ := hsome (by omega)
        refine ⟨d', packets', ?_, ?_, hmax'⟩
        · simp only [hread, hrun]
          rw [hD, take_append, take_of_length_le hble]
        · rwa [hD, drop_append, drop_eq_nil_of_le hble]
      · intro hlt
        obtain ⟨d', hrun, hprogress, hr⟩ := hend (by omega)
        refine ⟨d', ?_, hprogress, hr⟩
        simp only [hread, hrun, hD]

lemma length_packet_pos : 0 < msg.packet.length := by simp [Message.packet]

lemma Holds.pieces_le (h : Holds d packets tail D P) : pieces d packets ≤ d.r.length + 1 := by
  have hle : packets.length ≤ (packets.flatMap Message.packet).length := by
    rw [length_flatMap]
    refine length_le_sum_of_one_le _ ?_ |>.trans' (by simp)
    intro n hn
    obtain ⟨msg, -, rfl⟩ := mem_map.mp hn
    exact length_packet_pos msg
  have hlen := congrArg List.length h.stream
  rw [length_append] at hlen
  unfold pieces
  split_ifs <;> omega

lemma Holds.readAll (hE : Ends max tail e rest) (sizes : List ℕ) (h : Holds d packets tail D P) (hmax : d.max = max) :
    (sizes.sum ≤ D.length → ∃ d' packets', Demuxer.readAll sizes d = ((D.take sizes.sum, none), d') ∧
      Holds d' packets' tail (D.drop sizes.sum) P) ∧
    (D.length < sizes.sum → ∃ d', Demuxer.readAll sizes d = ((D, some e), d') ∧
      d'.progress = some P ∧ d'.r = rest) := by
  induction sizes generalizing d packets D with
  | nil =>
    refine ⟨fun _ => ⟨d, packets, by simp [Demuxer.readAll], by simpa using h⟩, by simp⟩
  | cons n sizes ih =>
    rw [Demuxer.readAll, Demuxer.read, sum_cons]
    have hfuel : pieces d packets < d.r.length + 2 := Nat.lt_succ_of_le h.pieces_le
    obtain ⟨hsome, hend⟩ := Holds.readLoop hE n h hmax (.inl hfuel)
    by_cases hn : n ≤ D.length
    · obtain ⟨d₁, packets₁, hrun, h₁, hmax₁⟩ := hsome hn
      obtain ⟨hsome', hend'⟩ := ih h₁ hmax₁
      rw [length_drop] at hsome' hend'
      rw [hrun]
      constructor
      · intro hle
        obtain ⟨d', packets', hrun', h'⟩ := hsome' (by omega)
        refine ⟨d', packets', ?_, ?_⟩
        · simp only [hrun']
          rw [take_add]
        · rwa [drop_drop] at h'
      · intro hlt
        obtain ⟨d', hrun', hrest⟩ := hend' (by omega)
        refine ⟨d', ?_, hrest⟩
        simp only [hrun', take_append_drop]
    · obtain ⟨d', hrun, hrest⟩ := hend (not_le.mp hn)
      refine ⟨fun hle => absurd hle (by omega), fun _ => ⟨d', ?_, hrest⟩⟩
      rw [hrun]

end Demuxer

section Delivers

variable {t : Kind} {msgs : List Message}

lemma newMuxer_max_pos (t : Kind) : 0 < (newMuxer t []).max := by cases t <;> decide

lemma max_le_maxSize (t : Kind) : t.max ≤ PktLine.maxSize := by cases t <;> decide

lemma limit_add (t : Kind) : t.limit + 5 = t.max := by cases t <;> rfl

lemma holds_newDemuxer {packets : List Message} (hfits : ∀ q ∈ packets, Fits t.max q) (tail buffer : Bytes) :
    Holds { newDemuxer t (packets.flatMap Message.packet ++ tail) buffer with progress := some [] }
      packets tail (dataOf packets) (progressOf packets) :=
  ⟨rfl, max_le_maxSize t, hfits, rfl, [], rfl, rfl⟩

lemma delivers_of_short (hshort : ∀ msg ∈ msgs, msg.payload.length ≤ t.limit) : Delivers t msgs := by
  have hsize : t.limit < PktLine.maxPayloadSize := by cases t <;> decide
  obtain ⟨packets, hsend, hdata, hprogress, hall, -⟩ := Muxer.sendAll_ok (newMuxer_max_pos t)
    fun msg hmsg => (min_le_right _ _).trans_lt ((hshort msg hmsg).trans_lt hsize)
  have hfits : ∀ q ∈ packets, Fits t.max q := by
    intro q hq
    obtain ⟨hne, -, msg, hmsg, hle⟩ := hall q hq
    have hlimit := hshort msg hmsg
    have hsum := limit_add t
    exact ⟨hne, by omega⟩
  refine ⟨_, hsend, fun rest buffer sizes => ?_⟩
  have hstart := holds_newDemuxer hfits (PktLine.flushPkt ++ rest) buffer
  rw [hdata, hprogress] at hstart
  obtain ⟨hsome, hend⟩ := Holds.readAll (ends_flush t.max rest) sizes hstart rfl
  have hstream : PktLine.writeFlush ((newMuxer t []).w ++ packets.flatMap Message.packet) ++ rest =
      packets.flatMap Message.packet ++ (PktLine.flushPkt ++ rest) := by
    simp [PktLine.writeFlush, newMuxer]
  rw [hstream]
  by_cases hlt : (dataOf msgs).length < sizes.sum
  · obtain ⟨d, hrun, hforwarded, hr⟩ := hend hlt
    refine ⟨d, progressOf msgs, ?_, hforwarded, prefix_rfl, fun _ => ⟨rfl, hr⟩⟩
    rw [hrun, if_pos hlt, take_of_length_le hlt.le]
  · obtain ⟨d, packets', hrun, h'⟩ := hsome (not_lt.mp hlt)
    obtain ⟨forwarded, hforwarded, hP⟩ := h'.progress
    refine ⟨d, forwarded, ?_, hforwarded, ⟨_, hP⟩, fun h => absurd h hlt⟩
    rw [hrun, if_neg hlt]

lemma exists_first {α : Type} {p : α → Prop} {l : List α} (h : ∃ x ∈ l, ¬ p x) :
    ∃ before x after, l = before ++ x :: after ∧ (∀ y ∈ before, p y) ∧ ¬ p x := by
  induction l with
  | nil => simp at h
  | cons a l ih =>
    by_cases ha : p a
    · have h' : ∃ x ∈ l, ¬ p x := by simpa [ha] using h
      obtain ⟨before, x, after, rfl, hall, hx⟩ := ih h'
      exact ⟨a :: before, x, after, rfl, by simpa [ha] using hall, hx⟩
    · exact ⟨[], a, l, rfl, by simp, ha⟩

lemma not_delivers_of_long {msg : Message} (hmsg : msg ∈ msgs) (hlong : t.limit < msg.payload.length) :
    ¬ Delivers t msgs := by
  rintro ⟨m, hsend, hread⟩
  cases t with
  | sideband64k =>
    refine Muxer.sendAll_tooLong (newMuxer_max_pos .sideband64k) hmsg ?_ hsend
    exact le_min (by decide) hlong
  | sideband =>
    obtain ⟨packets, hsend', hdata, -, hall, hlong'⟩ :=
      @Muxer.sendAll_ok (newMuxer .sideband []) msgs (newMuxer_max_pos _)
        fun msg _ => (min_le_left _ _).trans_lt (by decide)
    obtain rfl := Except.ok.inj (hsend.symm.trans hsend')
    obtain ⟨q, hq, hqlen⟩ := hlong' msg hmsg (ne_nil_of_length_pos (by omega))
    have hbad : ∃ q ∈ packets, ¬ Fits Kind.sideband.max q := by
      refine ⟨q, hq, fun hfit => ?_⟩
      have hle : q.payload.length + 5 ≤ 1000 := hfit.2
      have hmin : q.payload.length = min 999 msg.payload.length := hqlen
      have hlimit : 995 < msg.payload.length := hlong
      omega
    obtain ⟨before, x, after, rfl, hfits, hx⟩ := exists_first hbad
    obtain ⟨hxne, hxmax, -⟩ := hall x (by simp)
    have hxlong : Kind.sideband.max < x.payload.length + 5 := by
      by_contra hle
      exact hx ⟨hxne, not_lt.mp hle⟩
    -- one read of all data and a byte more comes to the packet
    obtain ⟨d, forwarded, hrun, -⟩ := hread [] [] [(dataOf msgs).length + 1]
    have hstream : PktLine.writeFlush ((newMuxer .sideband []).w ++
        (before ++ x :: after).flatMap Message.packet) ++ [] = before.flatMap Message.packet ++
          (x.packet ++ (after.flatMap Message.packet ++ PktLine.flushPkt)) := by
      simp [PktLine.writeFlush, newMuxer]
    have hends := ends_long (hxmax.trans_lt (by decide)) hxlong (after.flatMap Message.packet ++ PktLine.flushPkt)
    obtain ⟨-, hend⟩ := Holds.readAll hends [(dataOf msgs).length + 1] (holds_newDemuxer hfits _ []) rfl
    have hlt : (dataOf before).length < [(dataOf msgs).length + 1].sum := by
      rw [← hdata, dataOf_append, length_append, sum_singleton]
      omega
    obtain ⟨d', hrun', -⟩ := hend hlt
    rw [hstream, hrun'] at hrun
    simp [Fault.eof] at hrun

/-- A muxer and a demuxer of one kind agree on the messages up to a length, and on no longer ones. -/
theorem delivers_iff (t : Kind) (msgs : List Message) :
    Delivers t msgs ↔ ∀ msg ∈ msgs, msg.payload.length ≤ t.limit := by
  refine ⟨fun h msg hmsg => ?_, delivers_of_short⟩
  by_contra hlong
  exact not_delivers_of_long hmsg (not_le.mp hlong) h

theorem not_delivers_full : ¬ Delivers .sideband [.data (List.replicate 996 0)] ∧
      ¬ Delivers .sideband64k [.data (List.replicate 65516 0)] := by
  refine ⟨not_delivers_of_long mem_cons_self ?_, not_delivers_of_long mem_cons_self ?_⟩
  · rw [Message.payload, length_replicate]
    decide
  · rw [Message.payload, length_replicate]
    decide

end Delivers

end GoGit.Sideband

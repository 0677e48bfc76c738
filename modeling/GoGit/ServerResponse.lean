import GoGit.Lines
import GoGit.UploadRequest

/-! `ServerResponse`: the answers of the server to the names that the client has. -/
namespace GoGit.ServerResponse

open List

structure ACK where
  hash : ObjectID
  status : UInt8
  deriving DecidableEq

def ackLineLen : ℕ := 44

def ack : Bytes := textBytes "ACK"

def nak : Bytes := textBytes "NAK"

/-- `ACKStatus.String` -/
def string (status : UInt8) : Bytes :=
  if status = 1 then textBytes "continue"
  else if status = 2 then textBytes "common"
  else if status = 3 then textBytes "ready"
  else []

inductive DecodeError
  | read
  | unexpectedFlush
  | unexpectedContent (line : Bytes)
  | malformedACK (line : Bytes)
  deriving DecidableEq

def parseStatus (part : Bytes) : UInt8 :=
  let status := Trim.trimSpace part
  if status = textBytes "continue" then 1
  else if status = textBytes "common" then 2
  else if status = textBytes "ready" then 3
  else 0

/-- The answer of a line, and whether it is the last one. -/
def decodeACKLine (line : Bytes) : Except DecodeError (ACK × Bool) :=
  match line.splitOn 0x20 with
  | _ :: digits :: rest =>
    if line.length < ackLineLen then .error (.malformedACK line)
    else .ok (⟨.fromHex (Packp.trimEol digits), (rest.head?.map parseStatus).getD 0⟩, rest = [])
  | _ => .error (.malformedACK line)

/-- `Decode`, after some answers. The end of the input ends the response. -/
def decode (acks : List ACK) : List Pkt → Except DecodeError (List ACK)
  | [] => .ok acks
  | p :: rest =>
    match p.readLine with
    | none => .error .read
    | some line =>
      if line = [] then .error .unexpectedFlush
      else if line.take 3 = ack then
        match decodeACKLine line with
        | .error e => .error e
        | .ok (a, true) => .ok (acks ++ [a])
        | .ok (a, false) => decode (acks ++ [a]) rest
      else if line.take 3 = nak then .ok acks
      else .error (.unexpectedContent line)

def line (hash : ObjectID) (tail : Bytes) : Pkt := .line (ack ++ 0x20 :: (hash.string ++ tail))

/-- The loop of `encodeServerResponse`; `first` is the hash of the first answer of all. -/
def encodeLoop (first : ObjectID) : Bool → List ACK → List Pkt
  | _, [] => []
  | multiAck, a :: rest =>
    if a.status > 0 then line a.hash (0x20 :: (string a.status ++ [0x0a])) :: encodeLoop first true rest
    else line first [0x0a] :: if multiAck then encodeLoop first multiAck rest else []

def encodeServerResponse (acks : List ACK) : List Pkt :=
  match acks with
  | [] => [.line (nak ++ [0x0a])]
  | a :: _ => encodeLoop a.hash false acks

lemma not_mem_string (hash : ObjectID) : 0x20 ∉ hash.string ∧ 0x0a ∉ hash.string :=
  ⟨fun hin => absurd (Hex.isDigit_of_mem_encode hin) (by decide),
    fun hin => absurd (Hex.isDigit_of_mem_encode hin) (by decide)⟩

lemma decode_line (hash : ObjectID) {digits tail : Bytes} {parts : List Bytes}
    (h : (hash.string ++ tail).splitOn 0x20 = digits :: parts) (hdigits : Packp.trimEol digits = hash.string)
    {a : ACK} (ha : a = ⟨.fromHex hash.string, (parts.head?.map parseStatus).getD 0⟩) (acks : List ACK)
    (rest : List Pkt) : decode acks (line hash tail :: rest) =
      if parts = [] then .ok (acks ++ [a]) else decode (acks ++ [a]) rest := by
  have hlen : 40 ≤ hash.string.length := by
    rw [ObjectID.string, Hex.length_encode, hash.length_bytes_eq]
    cases hash.format <;> decide
  have hack : ack = [0x41, 0x43, 0x4b] := by decide +kernel
  have herr : PktLine.errPrefix = [0x45, 0x52, 0x52, 0x20] := by decide +kernel
  have hline : decodeACKLine (ack ++ 0x20 :: (hash.string ++ tail)) = .ok (a, parts = []) := by
    rw [decodeACKLine, Lines.splitOn_cut (by decide +kernel), h]
    dsimp only
    rw [if_neg (by simp [hack, ackLineLen]; omega), hdigits, ha]
  simp only [hack, cons_append, nil_append] at hline
  by_cases hparts : parts = [] <;> simp [decode, line, Pkt.readLine, hack, herr, hline, hparts]

def decoded (a : ACK) : ACK := ⟨.fromHex a.hash.string, parseStatus (string a.status ++ [0x0a])⟩

lemma decode_status (a : ACK) (acks : List ACK) (rest : List Pkt) :
    decode acks (line a.hash (0x20 :: (string a.status ++ [0x0a])) :: rest) = decode (acks ++ [decoded a]) rest := by
  have hblank : 0x20 ∉ string a.status ++ [0x0a] := by
    unfold string
    split_ifs <;> decide +kernel
  have heol : Packp.trimEol a.hash.string = a.hash.string :=
    if_neg fun hsuf => (not_mem_string a.hash).2 (hsuf.subset (by simp))
  have hsplit := Lines.splitOn_cut (not_mem_string a.hash).1 (string a.status ++ [0x0a])
  rw [Lines.splitOn_word hblank] at hsplit
  exact decode_line a.hash hsplit heol rfl acks rest

lemma decode_last (hash : ObjectID) (acks : List ACK) (rest : List Pkt) :
    decode acks (line hash [0x0a] :: rest) = .ok (acks ++ [⟨.fromHex hash.string, 0⟩]) :=
  decode_line hash (Lines.splitOn_word (by simp [(not_mem_string hash).1])) (by simp [Packp.trimEol]) rfl acks rest

lemma decode_encodeLoop (first : ObjectID) {init : List ACK} (hinit : ∀ a ∈ init, a.status ≠ 0) {last : ACK}
    (hlast : last.status = 0) (multiAck : Bool) (acks : List ACK) :
    decode acks (encodeLoop first multiAck (init ++ [last])) =
      .ok (acks ++ init.map decoded ++ [⟨.fromHex first.string, 0⟩]) := by
  induction init generalizing multiAck acks with
  | nil => simp [encodeLoop, hlast, decode_last]
  | cons a init ih =>
    have ha := UInt8.pos_iff_ne_zero.mpr (hinit a mem_cons_self)
    rw [cons_append, encodeLoop, if_pos ha, decode_status, ih fun b hb => hinit b (mem_cons_of_mem _ hb)]
    simp

lemma decoded_eq_iff (a : ACK) : decoded a = a ↔ a.hash.Proper ∧ a.status ≤ 3 := by
  have hstatus : parseStatus (string a.status ++ [0x0a]) = a.status ↔ a.status ≤ 3 := by
    unfold string
    split_ifs with h₁ h₂ h₃
    · rw [h₁]; decide +kernel
    · rw [h₂]; decide +kernel
    · rw [h₃]; decide +kernel
    · have hzero : parseStatus ([] ++ [0x0a]) = 0 := by decide +kernel
      rw [hzero, eq_comm]
      simp only [← UInt8.toNat_inj, UInt8.le_iff_toNat_le] at h₁ h₂ h₃ ⊢
      simp at h₁ h₂ h₃ ⊢
      omega
  rw [← ObjectID.fromHex_string_iff, ← hstatus]
  cases a
  simp [decoded]

/-- The answers come back if and only if their hashes and states can be written and the last hash is the first one:
the line without a state has the hash of the first answer. -/
theorem decode_encodeServerResponse_iff {init : List ACK} (hinit : ∀ a ∈ init, a.status ≠ 0) {last : ACK}
    (hlast : last.status = 0) : decode [] (encodeServerResponse (init ++ [last])) = .ok (init ++ [last]) ↔
      (∀ a ∈ init ++ [last], a.hash.Proper ∧ a.status ≤ 3) ∧ ∀ a ∈ init.head?, a.hash = last.hash := by
  obtain ⟨hash, status⟩ := last
  obtain rfl : status = 0 := hlast
  have hmap : init.map decoded = init ↔ ∀ a ∈ init, a.hash.Proper ∧ a.status ≤ 3 := by
    simp only [← decoded_eq_iff]
    conv_lhs => rhs; rw [← map_id init]
    exact map_inj_left
  have hlist : ∀ first, decode [] (encodeLoop first false (init ++ [⟨hash, 0⟩])) = .ok (init ++ [⟨hash, 0⟩]) ↔
      init.map decoded = init ∧ .fromHex first.string = hash := by
    intro first
    rw [decode_encodeLoop first hinit rfl, Except.ok.injEq, nil_append]
    exact ⟨fun heq => (append_inj' heq rfl).imp_right (by simp), fun ⟨h₁, h₂⟩ => by rw [h₁, h₂]⟩
  have hzero : (0 : UInt8) ≤ 3 := by decide
  cases init with
  | nil => simpa [encodeServerResponse, hzero] using (hlist hash).trans (by simp [ObjectID.fromHex_string_iff])
  | cons a init =>
    refine (hlist a.hash).trans ?_
    rw [hmap, forall_mem_append, forall_mem_singleton]
    constructor
    · rintro ⟨hall, heq⟩
      have hproper := (hall a mem_cons_self).1
      rw [hproper.fromHex_string] at heq
      exact ⟨⟨hall, heq ▸ hproper, hzero⟩, by simpa using heq⟩
    · rintro ⟨⟨hall, -⟩, heq⟩
      have hfirst : a.hash = hash := by simpa using heq
      exact ⟨hall, by rw [(hall a mem_cons_self).1.fromHex_string, hfirst]⟩

def ones : ObjectID := .fromHex (List.replicate 40 0x31)

theorem decode_encodeServerResponse_common :
    decode [] (encodeServerResponse ([⟨ones, 2⟩, ⟨.zeroHash, 3⟩] ++ [⟨ones, 0⟩])) =
      .ok ([⟨ones, 2⟩, ⟨.zeroHash, 3⟩] ++ [⟨ones, 0⟩]) := by
  refine (decode_encodeServerResponse_iff (by decide) rfl).mpr ⟨?_, by decide +kernel⟩
  unfold ObjectID.Proper
  decide +kernel

theorem decode_encodeServerResponse_first :
    decode [] (encodeServerResponse [⟨ones, 1⟩, ⟨.zeroHash, 0⟩]) ≠ .ok [⟨ones, 1⟩, ⟨.zeroHash, 0⟩] := by
  decide +kernel

end GoGit.ServerResponse

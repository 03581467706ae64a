import LwipDtn.Handoff
import LwipDtn.InetChksum

/-!
`dtn_icmpv6_send_message` with the checksum that it computes. Elsewhere the checksum of a
message is a value of the environment, so all that is proved there holds for the computed
one too; a receiver that adds up the message again gets zero.
-/

namespace LwipDtn
open Outcome Bytes

def emptyChksum : Block 2 := ⟨le16 0, le16_length 0⟩

/-- The message in one buffer; `odd` says where the buffer begins. -/
def messageSegment (odd : Bool) (message : Bytes) : Run Segment :=
  if h : message.length < 65536 then .ok ⟨odd, message, h⟩ else .error .fault

/-- `ip6_chksum_pseudo` over the message while its checksum is 0. -/
def statusChksum (odd : Bool) (cfg : Config) (env : StatusEnv) (type code reason : UInt8)
    (dest : Block 16) (plen : Block 2) (quote old : Bytes) : Run (Block 2) := do
  let q ← messageSegment odd ((statusPacket cfg { env with chksum := emptyChksum } type code reason
    dest plen quote old).drop ip6Hlen)
  let sum := ip6ChksumPseudo [q] ip6NexthIcmp6 q.payload.length cfg.myAddr dest
  return ⟨le16 sum, le16_length sum⟩

/-- The buffer with the new header, and the send. -/
def sendComplete (env : StatusEnv) (stored : List Bytes) (about : Bytes) (dest : Block 16)
    (packet : Bytes) : Run (List Effect) :=
  match pbufAlloc env.complete (ip6Hlen + (8 + (9 + quotedLen))) with
  | none => return []
  | some _ => return [.status ⟨packet, dest, env.sendto, stored⟩ about]

/-- `dtn_icmpv6_send_message` -/
def sendSummedMessage (odd : Bool) (cfg : Config) (env : StatusEnv) (stored : List Bytes)
    (p : Pbuf) (type code reason : UInt8) : Run (List Effect) := do
  match pbufAlloc env.message (8 + (9 + quotedLen)) with
  | none => return []
  | some (q, _) =>
      let plen ← readBlock p.mem 4 2
      let quote := p.bytes.take quotedLen
      let dest ← match ← dtnExtractCustodianOption p with
        | some c => pure c
        | none => readBlock p.mem 8 16
      let old := q.drop (17 + quote.length)
      let chksum ← statusChksum odd cfg env type code reason dest plen quote old
      let packet := statusPacket cfg { env with chksum := chksum } type code reason dest plen quote
        old
      sendComplete env stored p.bytes dest packet

theorem messageSegment_of_lt (odd : Bool) {message : Bytes} (h : message.length < 65536) :
    ∃ q, messageSegment odd message = .ok q ∧ q.payload = message := by
  rw [messageSegment, dif_pos h]
  exact ⟨_, rfl, rfl⟩

section

variable {odd : Bool} {cfg : Config} {env : StatusEnv} {type code reason : UInt8}
  {dest : Block 16} {plen : Block 2} {quote old : Bytes}

def statusMessage (env : StatusEnv) (type code reason : UInt8) (plen : Block 2)
    (quote old : Bytes) : Bytes :=
  [type, code] ++ (env.chksum.1 ++ ([0, 0, 0, 0] ++
    ((le32 env.now ++ [0, 0] ++ plen.1 ++ [reason]) ++ (quote ++ old))))

theorem statusPacket_eq (cfg : Config) (env : StatusEnv) (type code reason : UInt8)
    (dest : Block 16) (plen : Block 2) (quote old : Bytes) :
    statusPacket cfg env type code reason dest plen quote old =
      [0x60, 0, 0, 0] ++ be16 65 ++ [ip6NexthIcmp6, 255] ++ cfg.myAddr.1 ++ dest.1 ++
        statusMessage env type code reason plen quote old := by
  simp only [statusPacket, statusMessage, List.append_assoc]

theorem statusPacket_message (cfg : Config) (env : StatusEnv) (type code reason : UInt8)
    (dest : Block 16) (plen : Block 2) (quote old : Bytes) :
    (statusPacket cfg env type code reason dest plen quote old).drop ip6Hlen =
      statusMessage env type code reason plen quote old := by
  rw [statusPacket_eq]
  refine List.drop_left' ?_
  simp [be16, cfg.myAddr.2, dest.2, ip6Hlen]

theorem statusPacket_addresses (cfg : Config) (env : StatusEnv) (type code reason : UInt8)
    (dest : Block 16) (plen : Block 2) (quote old : Bytes) :
    readBlock (statusPacket cfg env type code reason dest plen quote old) 8 16 = .ok cfg.myAddr ∧
      readBlock (statusPacket cfg env type code reason dest plen quote old) 24 16 = .ok dest := by
  have hpacket := statusPacket_eq cfg env type code reason dest plen quote old
  constructor
  · rw [List.append_assoc _ dest.1] at hpacket
    exact readBlock_split cfg.myAddr hpacket rfl
  · refine readBlock_split dest hpacket ?_
    simp [be16, cfg.myAddr.2]

/-- There is a checksum for every message, and with it in the message the sum is zero. -/
theorem statusChksum_spec (odd : Bool) (cfg : Config) (env : StatusEnv) (type code reason : UInt8)
    (dest : Block 16) (plen : Block 2) (full : quote.length + old.length = quotedLen) :
    ∃ chksum, statusChksum odd cfg env type code reason dest plen quote old = .ok chksum ∧
      ∀ p : List Segment, chainBytes p = (statusPacket cfg { env with chksum := chksum } type code
          reason dest plen quote old).drop ip6Hlen →
        ip6ChksumPseudo p ip6NexthIcmp6 65 cfg.myAddr dest = 0 := by
  have hlength : ((statusPacket cfg { env with chksum := emptyChksum } type code reason dest plen
      quote old).drop ip6Hlen).length = 65 := by
    rw [List.length_drop, (statusPacket_quote full).1]
    rfl
  obtain ⟨q, hq, hpayload⟩ := messageSegment_of_lt odd (hlength.trans_lt (by decide))
  rw [statusChksum, hq]
  refine ⟨_, rfl, fun p hp => ?_⟩
  rw [hpayload, hlength, statusPacket_message] at hp
  have even : [type, code].length % 2 = 0 := Nat.mod_self 2
  refine checksum_verifies even (by decide) ?_ hp
  rw [chainBytes, List.flatMap_singleton, hpayload, statusPacket_message]
  rfl

/-- A receiver that adds up the message with the addresses of its header gets zero, whatever
buffers it has the message in. -/
def Verifies (packet : Bytes) : Prop :=
  ∃ src dest, readBlock packet 8 16 = .ok src ∧ readBlock packet 24 16 = .ok dest ∧
    ∀ p : List Segment, chainBytes p = packet.drop ip6Hlen →
      ip6ChksumPseudo p ip6NexthIcmp6 (packet.drop ip6Hlen).length src dest = 0


/-- The sums of all messages that have been sent are right. -/
def StatusVerifies (effects : List Effect) : Prop :=
  ∀ t about, .status t about ∈ effects → Verifies t.packet

theorem sendComplete_verifies {stored : List Bytes} {about packet : Bytes} (h : Verifies packet)
    {effects : List Effect} (heffects : sendComplete env stored about dest packet = .ok effects) :
    StatusVerifies effects := by
  intro t q hmem
  unfold sendComplete at heffects
  split at heffects
  · cases heffects
    cases hmem
  · cases heffects
    cases List.mem_singleton.mp hmem
    exact h

theorem summed_spec (odd : Bool) (cfg : Config) (env : StatusEnv) (stored : List Bytes)
    (about : Bytes) (type code reason : UInt8) (dest : Block 16) (plen : Block 2)
    (full : quote.length + old.length = quotedLen) :
    ∃ chksum packet, (do
        let c ← statusChksum odd cfg env type code reason dest plen quote old
        sendComplete env stored about dest
          (statusPacket cfg { env with chksum := c } type code reason dest plen quote old)) =
        sendComplete env stored about dest packet ∧ Verifies packet ∧
      packet =
        statusPacket cfg { env with chksum := chksum } type code reason dest plen quote old := by
  obtain ⟨chksum, hchksum, hverifies⟩ :=
    statusChksum_spec odd cfg env type code reason dest plen full
  obtain ⟨hsrc, hdest⟩ := statusPacket_addresses cfg { env with chksum := chksum } type code reason
    dest plen quote old
  refine ⟨chksum, _, by rw [hchksum]; rfl, ⟨_, _, hsrc, hdest, fun p hp => ?_⟩, rfl⟩
  have hlength : ((statusPacket cfg { env with chksum := chksum } type code reason dest plen
      quote old).drop ip6Hlen).length = 65 := by
    rw [List.length_drop, (statusPacket_quote full).1]
    rfl
  rw [hlength]
  exact hverifies p hp

/-- With its checksum the message is one that the environment could have given a checksum
to, and it verifies. -/
theorem status_messages_verify (odd : Bool) (cfg : Config) (env : StatusEnv) (stored : List Bytes)
    (p : Pbuf) (type code reason : UInt8) :
    ∃ chksum, sendSummedMessage odd cfg env stored p type code reason =
        dtnIcmpv6SendMessage cfg { env with chksum := chksum } stored p type code reason ∧
      ∀ effects, sendSummedMessage odd cfg env stored p type code reason = .ok effects →
        StatusVerifies effects := by
  unfold sendSummedMessage dtnIcmpv6SendMessage
  dsimp only
  cases halloc : pbufAlloc env.message (8 + (9 + quotedLen)) with
  | none =>
      refine ⟨emptyChksum, rfl, fun effects heffects t about hmem => ?_⟩
      cases heffects
      cases hmem
  | some block =>
      obtain ⟨q, behind⟩ := block
      have hq : q.length = 65 := pbufAlloc_length halloc
      have full : (p.bytes.take quotedLen).length +
          (q.drop (17 + (p.bytes.take quotedLen).length)).length = quotedLen := by
        have hle : (p.bytes.take quotedLen).length ≤ quotedLen := List.length_take_le _ _
        have hquoted : quotedLen = 48 := rfl
        rw [List.length_drop, hq]
        omega
      dsimp only
      cases readBlock p.mem 4 2 with
      | error e =>
          refine ⟨emptyChksum, rfl, fun effects heffects => ?_⟩
          cases heffects
      | ok plen =>
          simp only [Run.bind_ok]
          cases dtnExtractCustodianOption p with
          | error e =>
              refine ⟨emptyChksum, rfl, fun effects heffects => ?_⟩
              cases heffects
          | ok custodian =>
              simp only [Run.bind_ok]
              cases custodian with
              | some dest =>
                  obtain ⟨chksum, packet, hrun, hverifies, rfl⟩ :=
                    summed_spec odd cfg env stored p.bytes type code reason dest plen full
                  simp only [pure_bind]
                  rw [hrun]
                  exact ⟨chksum, rfl, fun effects => sendComplete_verifies hverifies⟩
              | none =>
                  cases readBlock p.mem 8 16 with
                  | error e =>
                      refine ⟨emptyChksum, rfl, fun effects heffects => ?_⟩
                      cases heffects
                  | ok dest =>
                      obtain ⟨chksum, packet, hrun, hverifies, rfl⟩ :=
                        summed_spec odd cfg env stored p.bytes type code reason dest plen full
                      simp only [Run.bind_ok]
                      rw [hrun]
                      exact ⟨chksum, rfl, fun effects => sendComplete_verifies hverifies⟩

end

end LwipDtn

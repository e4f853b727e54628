import StrataKV.Lib.TransitionSystem
import StrataKV.Raft.Node

/-!
# The transfer of a snapshot in chunks

A leader sends a snapshot that is larger than a chunk in several calls, and the peer puts the chunks
together in `m_snapshotReceiveBuffer`. Here one peer receives chunks from any number of leaders, in
any order and any number of times, and may be restarted in between. The buffer does not say which
snapshot its bytes are of, and a chunk behind its end is appended nevertheless. So the peer installs
what a leader holds if the chunks of a transfer come one after another (`installed_complete`), and
else it may install less (`tail_installed`).
-/

namespace StrataKV.Raft

open Node

variable {n : ℕ}

/-! ## The peer and the transfers -/

/-- A peer that receives snapshots. -/
structure Receiver (n : ℕ) where
  node : Node n
  /-- The transfers so far: who has begun them, and in which state. -/
  transfers : List (Fin n × Node n) := []
  /-- The last chunk that this process of the peer has handled: its transfer and its number. -/
  last : Option (ℕ × ℕ) := none

inductive ReceiverEvent (n : ℕ)
  /-- `leaderSendSnapShot` of a leader takes a snapshot to send. -/
  | begin (me : Fin n) (leader : Node n)
  /-- A chunk of a transfer arrives. -/
  | chunk (transfer number : ℕ)
  | crash
  /-- Another call has left the peer as it is, which does not touch the buffer. -/
  | other (node : Node n)

/-- The chunk of the given number of the snapshot that the leader holds. -/
def chunkArgs (me : Fin n) (leader : Node n) (number : ℕ) : InstallSnapshotArgs n :=
  installSnapshotArgs me { leader.snapshotTask with offset := number * chunkSize }

namespace Receiver

def Enabled (x : Receiver n) : ReceiverEvent n → Prop
  | .begin _ leader => leader.persisted.snapshot ≠ []
  | .chunk transfer number => ∃ me leader, x.transfers[transfer]? = some (me, leader) ∧
    number * chunkSize < leader.persisted.snapshot.length
  | .crash => True
  | .other node => node.snapshotReceiveBuffer = x.node.snapshotReceiveBuffer ∧
    x.node.currentTerm ≤ node.currentTerm ∧
    x.node.lastSnapshotIncludeIndex ≤ node.lastSnapshotIncludeIndex

def next (x : Receiver n) : ReceiverEvent n → Receiver n
  | .begin me leader => { x with transfers := x.transfers ++ [(me, leader)] }
  | .chunk transfer number =>
    match x.transfers[transfer]? with
    | none => x
    | some (me, leader) =>
      { x with
        node := (x.node.installSnapshot (chunkArgs me leader number)).1
        last := some (transfer, number) }
  | .crash => { x with node := x.node.restart, last := none }
  | .other node => { x with node := node }

end Receiver

/-- The runs of a peer from an empty disk. -/
def receiverSystem (n : ℕ) : TransitionSystem (Receiver n) (ReceiverEvent n) :=
  .ofEnabled { node := Node.start {} } Receiver.Enabled Receiver.next

/-- A chunk other than the first is handled behind the one before it, or behind a later one, of the
same transfer: no chunk of another transfer and no restart lies between. -/
def InOrder (x : Receiver n) : ReceiverEvent n → Prop
  | .chunk transfer number =>
    number = 0 ∨ ∃ before, x.last = some (transfer, before) ∧ number ≤ before + 1
  | _ => True

/-- From `r` to `r'` the peer has installed and published the snapshot that the leader holds. -/
structure InstalledFrom (leader r r' : Node n) : Prop where
  index : r'.lastSnapshotIncludeIndex = leader.lastSnapshotIncludeIndex
  term : r'.lastSnapshotIncludeTerm = leader.lastSnapshotIncludeTerm
  data : r'.persisted.snapshot = leader.persisted.snapshot
  published : r'.applyChan = r.applyChan ++ [.snapshot leader.lastSnapshotIncludeIndex
    leader.lastSnapshotIncludeTerm leader.persisted.snapshot]

/-- If the chunk moves the snapshot index, then a leader holds what is installed. -/
def InstallsComplete (x : Receiver n) (transfer number : ℕ) : Prop :=
  let y := x.next (.chunk transfer number)
  y.node.lastSnapshotIncludeIndex ≠ x.node.lastSnapshotIncludeIndex →
    ∃ sender ∈ x.transfers, InstalledFrom sender.2 x.node y.node

/-! ## One chunk -/

section

variable {me : Fin n} {leader r : Node n} {number : ℕ}

/-- The buffer has the bytes up to the end of the chunk, or the peer will not take the snapshot. -/
def Received (leader : Node n) (number : ℕ) (r : Node n) : Prop :=
  leader.currentTerm < r.currentTerm ∨
    leader.lastSnapshotIncludeIndex ≤ r.lastSnapshotIncludeIndex ∨
    r.snapshotReceiveBuffer = leader.persisted.snapshot.take ((number + 1) * chunkSize)

lemma receiveChunk_eq {buffer : Bytes} (hlt : number * chunkSize < leader.persisted.snapshot.length)
    (hbuffer : number = 0 ∨ ∃ before, number ≤ before + 1 ∧
      buffer = leader.persisted.snapshot.take ((before + 1) * chunkSize)) :
    receiveChunk buffer (chunkArgs me leader number) =
      leader.persisted.snapshot.take ((number + 1) * chunkSize) := by
  unfold receiveChunk chunkArgs installSnapshotArgs snapshotTask
  dsimp only
  generalize chunkSize = size at *
  rw [Nat.succ_mul]
  rcases hbuffer with rfl | ⟨before, hle, rfl⟩
  · simp
  · have hsize : number * size ≤ (before + 1) * size := Nat.mul_le_mul_right size hle
    have hlen : number * size ≤ (leader.persisted.snapshot.take ((before + 1) * size)).length := by
      rw [List.length_take]
      omega
    rw [if_pos hlen, List.take_take, min_eq_left hsize, ← List.take_add]
    split
    · rename_i hzero
      simp [hzero]
    · rfl

lemma followSnapshot_keeps (r : Node n) (args : InstallSnapshotArgs n) :
    (r.followSnapshot args).lastSnapshotIncludeIndex = r.lastSnapshotIncludeIndex ∧
      (r.followSnapshot args).snapshotReceiveBuffer = r.snapshotReceiveBuffer ∧
      (r.followSnapshot args).applyChan = r.applyChan ∧
      r.currentTerm ≤ (r.followSnapshot args).currentTerm := by
  unfold followSnapshot
  split
  · rename_i hlt
    exact ⟨rfl, rfl, rfl, hlt.le⟩
  · exact ⟨rfl, rfl, rfl, le_rfl⟩

/-- A chunk behind the bytes before it: afterwards the buffer has its bytes as well, and if it is the
last one, then the snapshot of the leader is installed. -/
lemma installSnapshot_chunk (me : Fin n)
    (hlt : number * chunkSize < leader.persisted.snapshot.length)
    (hbefore : number = 0 ∨ ∃ before, number ≤ before + 1 ∧ Received leader before r) :
    Received leader number (r.installSnapshot (chunkArgs me leader number)).1 ∧
      ((r.installSnapshot (chunkArgs me leader number)).1.lastSnapshotIncludeIndex =
          r.lastSnapshotIncludeIndex ∨
        InstalledFrom leader r (r.installSnapshot (chunkArgs me leader number)).1) := by
  obtain ⟨hindex, hbuffer, hchan, hterm⟩ := followSnapshot_keeps r (chunkArgs me leader number)
  unfold installSnapshot
  dsimp only
  generalize r.followSnapshot (chunkArgs me leader number) = r₁ at *
  split
  · rename_i hstale
    exact ⟨.inl hstale, .inl rfl⟩
  rename_i hcurrent
  split
  · rename_i hcovered
    exact ⟨.inr (.inl hcovered), .inl hindex⟩
  rename_i hnew
  rw [hindex] at hnew
  have hreceived : receiveChunk r.snapshotReceiveBuffer (chunkArgs me leader number) =
      leader.persisted.snapshot.take ((number + 1) * chunkSize) := by
    refine receiveChunk_eq hlt (hbefore.imp_right ?_)
    rintro ⟨before, hle, hstale | hcovered | hbytes⟩
    · exact absurd hstale hcurrent
    · exact absurd hcovered hnew
    · exact ⟨before, hle, hbytes⟩
  -- the last chunk ends where the snapshot ends
  have hdone : (chunkArgs me leader number).chunkDone = true →
      leader.persisted.snapshot.take ((number + 1) * chunkSize) = leader.persisted.snapshot := by
    intro hdone
    rw [Nat.succ_mul]
    exact List.take_of_length_le (of_decide_eq_true hdone)
  have hinstalled : ∀ data, data = leader.persisted.snapshot →
      InstalledFrom leader r (restoreSnapshot { r₁ with snapshotReceiveBuffer := [] }
        (chunkArgs me leader number) data) := by
    rintro data rfl
    refine ⟨rfl, rfl, rfl, ?_⟩
    show r₁.applyChan ++ _ = _
    rw [hchan]
    rfl
  split
  · rename_i honly
    refine ⟨.inr (.inl le_rfl), .inr (hinstalled _ ?_)⟩
    rw [← hdone honly.2, ← hreceived, receiveChunk, if_pos honly.1]
  rw [hbuffer]
  generalize receiveChunk r.snapshotReceiveBuffer _ = buffer at *
  split
  · rename_i hlast
    exact ⟨.inr (.inl le_rfl), .inr (hinstalled _ (hreceived.trans (hdone hlast)))⟩
  · exact ⟨.inr (.inr hreceived), .inl hindex⟩

section

variable (hterm : r.currentTerm ≤ leader.currentTerm)
  (hindex : r.lastSnapshotIncludeIndex < leader.lastSnapshotIncludeIndex)

include hterm hindex

/-- The last of several chunks: what the buffer has with it is installed as the snapshot. -/
lemma installSnapshot_last (me : Fin n) (htail : (chunkArgs me leader number).chunkOffset ≠ 0)
    (hdone : (chunkArgs me leader number).chunkDone = true) :
    (r.installSnapshot (chunkArgs me leader number)).1.lastSnapshotIncludeIndex =
        leader.lastSnapshotIncludeIndex ∧
      (r.installSnapshot (chunkArgs me leader number)).1.persisted.snapshot =
        receiveChunk r.snapshotReceiveBuffer (chunkArgs me leader number) := by
  obtain ⟨hkept, hsame, -⟩ := followSnapshot_keeps r (chunkArgs me leader number)
  have hnew : ¬(chunkArgs me leader number).lastSnapshotIncludeIndex ≤
      (r.followSnapshot (chunkArgs me leader number)).lastSnapshotIncludeIndex := by
    rw [hkept]
    exact Nat.not_le.2 hindex
  have hcurrent : ¬(chunkArgs me leader number).term < r.currentTerm := Nat.not_lt.2 hterm
  rw [installSnapshot, if_neg hcurrent]
  dsimp only
  rw [if_neg hnew, if_neg (fun h => htail h.1), if_pos hdone, hsame]
  exact ⟨rfl, rfl⟩

/-- A chunk that is not the last one installs nothing. -/
lemma installSnapshot_more (me : Fin n) (hmore : (chunkArgs me leader number).chunkDone = false) :
    (r.installSnapshot (chunkArgs me leader number)).1.currentTerm ≤ leader.currentTerm ∧
      (r.installSnapshot (chunkArgs me leader number)).1.lastSnapshotIncludeIndex =
        r.lastSnapshotIncludeIndex := by
  obtain ⟨hkept, -⟩ := followSnapshot_keeps r (chunkArgs me leader number)
  have hnew : ¬(chunkArgs me leader number).lastSnapshotIncludeIndex ≤
      (r.followSnapshot (chunkArgs me leader number)).lastSnapshotIncludeIndex := by
    rw [hkept]
    exact Nat.not_le.2 hindex
  have hcurrent : ¬(chunkArgs me leader number).term < r.currentTerm := Nat.not_lt.2 hterm
  have hfollowed : (r.followSnapshot (chunkArgs me leader number)).currentTerm ≤
      leader.currentTerm := by
    unfold followSnapshot
    split
    · exact le_rfl
    · exact hterm
  rw [installSnapshot, if_neg hcurrent]
  dsimp only
  rw [if_neg hnew, if_neg (by simp [hmore]), if_neg (by simp [hmore])]
  exact ⟨hfollowed, hkept⟩

end

/-- The second of two chunks is the last one. -/
lemma chunkDone_one (me : Fin n) (hlen : leader.persisted.snapshot.length = chunkSize + 1) :
    (chunkArgs me leader 1).chunkOffset ≠ 0 ∧ (chunkArgs me leader 1).chunkDone = true := by
  have hsize : 0 < chunkSize := by decide
  refine ⟨(Nat.mul_pos one_pos hsize).ne', ?_⟩
  show decide (leader.persisted.snapshot.length ≤ 1 * chunkSize + chunkSize) = true
  exact decide_eq_true (by omega)

end

/-! ## Runs -/

section

variable {x : Receiver n} {event : ReceiverEvent n} {transfer number : ℕ}

/-- What the last chunk has left, until the process ends. -/
def LastReceived (x : Receiver n) : Prop :=
  ∀ transfer number, x.last = some (transfer, number) →
    ∃ me leader, x.transfers[transfer]? = some (me, leader) ∧ Received leader number x.node

/-- The bytes before a chunk that comes in order are in the buffer. -/
lemma LastReceived.before (h : LastReceived x) {me : Fin n} {leader : Node n}
    (hget : x.transfers[transfer]? = some (me, leader)) (horder : InOrder x (.chunk transfer number)) :
    number = 0 ∨ ∃ before, number ≤ before + 1 ∧ Received leader before x.node := by
  refine horder.imp_right ?_
  rintro ⟨before, hlast, hle⟩
  obtain ⟨me', leader', hget', hreceived⟩ := h transfer before hlast
  rw [hget] at hget'
  cases hget'
  exact ⟨before, hle, hreceived⟩

lemma LastReceived.next (h : LastReceived x) (henabled : x.Enabled event)
    (horder : InOrder x event) : LastReceived (x.next event) := by
  cases event with
  | begin me leader =>
    intro transfer number hlast
    obtain ⟨me', leader', hget, hreceived⟩ := h transfer number hlast
    refine ⟨me', leader', ?_, hreceived⟩
    show (x.transfers ++ [(me, leader)])[transfer]? = _
    rw [List.getElem?_append_left (List.getElem?_eq_some_iff.1 hget).1, hget]
  | chunk transfer number =>
    obtain ⟨me, leader, hget, hlt⟩ := henabled
    have hchunk := (installSnapshot_chunk me hlt (h.before hget horder)).1
    simp only [LastReceived, Receiver.next, hget]
    rintro _ _ ⟨⟩
    exact ⟨me, leader, hget, hchunk⟩
  | crash =>
    intro transfer number hlast
    cases hlast
  | other node =>
    obtain ⟨hbuffer, hterm, hindex⟩ := henabled
    intro transfer number hlast
    obtain ⟨me, leader, hget, hreceived⟩ := h transfer number hlast
    refine ⟨me, leader, hget, hreceived.imp hterm.trans_lt' (Or.imp hindex.trans' ?_)⟩
    exact hbuffer.trans

/-- In every run in which the chunks of a transfer are handled in order, each snapshot that is
installed is one that a leader holds, with its index, its term and all its bytes. -/
theorem installed_complete (hx : (receiverSystem n).Reachable InOrder x)
    (henabled : x.Enabled (.chunk transfer number)) (horder : InOrder x (.chunk transfer number)) :
    InstallsComplete x transfer number := by
  have hlast : LastReceived x := by
    refine hx.invariant ?_ ?_
    · rintro x rfl transfer number hnone
      cases hnone
    · rintro x event y h horder ⟨henabled, rfl⟩
      exact h.next henabled horder
  obtain ⟨me, leader, hget, hlt⟩ := henabled
  have hchunk := (installSnapshot_chunk me hlt (hlast.before hget horder)).2
  unfold InstallsComplete
  simp only [Receiver.next, hget]
  intro hmoved
  exact ⟨(me, leader), List.mem_of_getElem? hget, hchunk.resolve_left hmoved⟩

end

/-! ## Two chunks -/

/-- A leader with a snapshot of one byte more than a chunk. -/
def chunkedLeader : Node 2 :=
  Node.start
    { currentTerm := 1
      lastSnapshotIncludeIndex := 1
      lastSnapshotIncludeTerm := 1
      snapshot := List.replicate (chunkSize + 1) 0 }

/-- The transfer has begun. -/
def chunkedReceiver : Receiver 2 := { node := Node.start {}, transfers := [(0, chunkedLeader)] }

lemma length_chunkedLeader : chunkedLeader.persisted.snapshot.length = chunkSize + 1 := by
  rw [chunkedLeader, start, List.length_replicate]

lemma reachable_chunkedReceiver {G : Receiver 2 → ReceiverEvent 2 → Prop}
    (hG : ∀ x, G x (.begin 0 chunkedLeader)) : (receiverSystem 2).Reachable G chunkedReceiver := by
  refine ⟨_, rfl, .single (hG _) ⟨?_, rfl⟩⟩
  intro hnil
  have hlen := congrArg List.length hnil
  rw [length_chunkedLeader] at hlen
  cases hlen

section

variable {x : Receiver n} {me : Fin n} {leader : Node n}
  (htransfers : x.transfers = [(me, leader)])
  (hlen : leader.persisted.snapshot.length = chunkSize + 1)
  (hterm : x.node.currentTerm ≤ leader.currentTerm)
  (hindex : x.node.lastSnapshotIncludeIndex < leader.lastSnapshotIncludeIndex)

include htransfers hlen

/-- Both chunks can arrive. -/
lemma enabled_chunk {number : ℕ} (hnumber : number ≤ 1) : x.Enabled (.chunk 0 number) := by
  refine ⟨me, leader, by rw [htransfers]; rfl, ?_⟩
  have hle : number * chunkSize ≤ 1 * chunkSize := Nat.mul_le_mul_right _ hnumber
  omega

include hterm hindex

/-- The first of two chunks is kept, and the second one moves the snapshot index. -/
lemma moves_bothChunks :
    ((x.next (.chunk 0 0)).next (.chunk 0 1)).node.lastSnapshotIncludeIndex ≠
      (x.next (.chunk 0 0)).node.lastSnapshotIncludeIndex := by
  have hmore : (chunkArgs me leader 0).chunkDone = false := by
    show decide (leader.persisted.snapshot.length ≤ 0 * chunkSize + chunkSize) = false
    exact decide_eq_false (by omega)
  obtain ⟨hterm', hkept⟩ := installSnapshot_more hterm hindex me hmore
  obtain ⟨htail, hdone⟩ := chunkDone_one me hlen
  have hindex' := hkept.trans_lt hindex
  have hmoved := (installSnapshot_last hterm' hindex' me htail hdone).1
  simp only [Receiver.next, htransfers, List.getElem?_cons_zero]
  exact hmoved.trans_ne hindex'.ne'

/-- The second of two chunks arrives alone, and the peer installs its only byte. -/
lemma not_installsComplete_tail (hbuffer : x.node.snapshotReceiveBuffer = []) :
    ¬InstallsComplete x 0 1 := by
  intro hinstalls
  obtain ⟨htail, hdone⟩ := chunkDone_one me hlen
  obtain ⟨hmoved, hdata⟩ := installSnapshot_last hterm hindex me htail hdone
  simp only [InstallsComplete, Receiver.next, htransfers, List.getElem?_cons_zero, hmoved]
    at hinstalls
  obtain ⟨sender, hsender, hinstalled⟩ := hinstalls hindex.ne'
  obtain rfl := List.mem_singleton.1 hsender
  -- all that the buffer had is the chunk itself
  have hone : (receiveChunk [] (chunkArgs me leader 1)).length = 1 := by
    rw [receiveChunk, if_neg htail, if_neg (by simpa using htail)]
    show ((leader.persisted.snapshot.drop (1 * chunkSize)).take chunkSize).length = 1
    rw [List.length_take, List.length_drop]
    have hsize : 0 < chunkSize := by decide
    omega
  have hsize : 0 < chunkSize := by decide
  rw [← hbuffer, ← hdata, hinstalled.data, hlen] at hone
  omega

end

/-- Both chunks arrive in order, and the second one installs the whole snapshot. -/
theorem installed_complete_bothChunks :
    ∃ x : Receiver 2, (receiverSystem 2).Reachable InOrder x ∧ ∃ sender ∈ x.transfers,
      InstalledFrom sender.2 x.node (x.next (.chunk 0 1)).node := by
  have hstart : (receiverSystem 2).Reachable InOrder chunkedReceiver :=
    reachable_chunkedReceiver fun _ => trivial
  have hfirst := enabled_chunk (x := chunkedReceiver) rfl length_chunkedLeader (Nat.zero_le 1)
  have hreach : (receiverSystem 2).Reachable InOrder (chunkedReceiver.next (.chunk 0 0)) :=
    hstart.tail (show InOrder _ (.chunk 0 0) from .inl rfl) ⟨hfirst, rfl⟩
  have hsecond : (chunkedReceiver.next (.chunk 0 0)).Enabled (.chunk 0 1) :=
    enabled_chunk rfl length_chunkedLeader le_rfl
  have hmoves := moves_bothChunks (x := chunkedReceiver) rfl length_chunkedLeader (Nat.zero_le 1)
    Nat.zero_lt_one
  exact ⟨_, hreach, installed_complete hreach hsecond (.inr ⟨0, rfl, le_rfl⟩) hmoves⟩

theorem tail_installed :
    ¬∀ (x : Receiver 2) (transfer number : ℕ),
      (receiverSystem 2).Reachable TransitionSystem.anyStep x →
        x.Enabled (.chunk transfer number) → InstallsComplete x transfer number := by
  intro h
  have henabled := enabled_chunk (x := chunkedReceiver) rfl length_chunkedLeader le_rfl
  exact not_installsComplete_tail rfl length_chunkedLeader (Nat.zero_le 1) Nat.zero_lt_one rfl
    (h chunkedReceiver 0 1 (reachable_chunkedReceiver fun _ => trivial) henabled)

end StrataKV.Raft

import BackendLab.Support.CString
import BackendLab.Support.Runs

/-!
# Reading in parts

The two ways to read of the class `Session` of the asynchronous server:
`ReadFromSocket` reads until the node is full, and `ReadAllFromSocket` is content
with what the first read brings.  Both give up if a read is pending, and they may be
mixed.  The callbacks use whatever node `_recvnode` points to when they are called.
-/

namespace BackendLab.PartialWrite

open Support Relation

/-- `RECVSIZE`. -/
def recvSize : ℕ := 1024

theorem recvSize_pos : 0 < recvSize := by decide

/-- The node that `_recvnode` points to, whose `_total_len` is `RECVSIZE`. -/
structure RecvNode where
  msg : Vector UInt8 recvSize
  curLen : ℕ

/-- The callback of a read. -/
inductive ReadPath where
  | some
  | all
  deriving DecidableEq, Repr

/-- A read that is outstanding: its callback, and where in the node its buffer
begins and how long it is. -/
structure Read where
  path : ReadPath
  offset : ℕ
  room : ℕ
  deriving DecidableEq, Repr

/-- The part of a session that reads, the bytes that it has been given and the
messages for which a callback has let go of its node. -/
structure Receiver where
  recvNode : Option RecvNode
  recvPending : Bool
  outstanding : List Read
  received : Bytes
  messages : List (ReadPath × Bytes)

namespace Receiver

def start : Receiver := ⟨none, false, [], [], []⟩

/-- Both calls.  The characters of the new node are what the allocation has found. -/
def readWith (s : Receiver) (path : ReadPath) (msg : Vector UInt8 recvSize) :
    Receiver :=
  if s.recvPending then s
  else
    { s with
      recvNode := some ⟨msg, 0⟩
      outstanding := s.outstanding ++ [⟨path, 0, recvSize⟩]
      recvPending := true }

def readFromSocket (s : Receiver) (msg : Vector UInt8 recvSize) : Receiver :=
  s.readWith .some msg

def readAllFromSocket (s : Receiver) (msg : Vector UInt8 recvSize) : Receiver :=
  s.readWith .all msg

/-- The node is let go. -/
def release (s : Receiver) (path : ReadPath) (node : RecvNode) : Receiver :=
  { s with
    recvNode := none
    recvPending := false
    messages := s.messages ++ [(path, node.msg.toList.take node.curLen)] }

/-- `ReadCallBack`, without an error. -/
def readCallBack (s : Receiver) (bytesTransfered : ℕ) : Receiver :=
  match s.recvNode with
  -- To use `_recvnode` is undefined; no run comes here.
  | none => s
  | some node =>
      let node : RecvNode := { node with curLen := node.curLen + bytesTransfered }
      if node.curLen < recvSize then
        { s with
          recvNode := some node
          outstanding :=
            s.outstanding ++ [⟨.some, node.curLen, recvSize - node.curLen⟩] }
      else s.release .some node

/-- `ReadAllCallBack`, which does not look at the error. -/
def readAllCallBack (s : Receiver) (bytesTransferred : ℕ) : Receiver :=
  match s.recvNode with
  | none => s
  | some node =>
      s.release .all { node with curLen := node.curLen + bytesTransferred }

/-- The bytes of a read are stored in the node. -/
def fill (s : Receiver) (offset : ℕ) (bytes : Bytes) : Receiver :=
  { s with
    recvNode := s.recvNode.map fun node =>
      { node with msg := store node.msg offset bytes }
    received := s.received ++ bytes }

def callBack (s : Receiver) : ReadPath → ℕ → Receiver
  | .some => s.readCallBack
  | .all => s.readAllCallBack

/-- The callbacks with an error, of which only one does anything. -/
def callBackFails (s : Receiver) : ReadPath → Receiver
  | .some => s
  | .all => s.readAllCallBack 0

end Receiver

/-- A call, a read that has found at least one byte, or a read that has failed. -/
inductive ReceiverStep : Receiver → Receiver → Prop
  | readFromSocket {s : Receiver} (msg : Vector UInt8 recvSize) :
      ReceiverStep s (s.readFromSocket msg)
  | readAllFromSocket {s : Receiver} (msg : Vector UInt8 recvSize) :
      ReceiverStep s (s.readAllFromSocket msg)
  | complete {s : Receiver} {before after : List Read} {r : Read} {bytes : Bytes}
      (h : s.outstanding = before ++ r :: after) (hne : bytes ≠ [])
      (hroom : bytes.length ≤ r.room) :
      ReceiverStep s
        ((({ s with outstanding := before ++ after } : Receiver).fill r.offset
          bytes).callBack r.path bytes.length)
  | fails {s : Receiver} {before after : List Read} {r : Read}
      (h : s.outstanding = before ++ r :: after) :
      ReceiverStep s
        (({ s with outstanding := before ++ after } : Receiver).callBackFails r.path)

def ReceiverReachable (s : Receiver) : Prop :=
  ReflTransGen ReceiverStep .start s

/-! ## What the session holds -/

/-- The bytes of the messages, in order. -/
def Receiver.taken (s : Receiver) : Bytes :=
  s.messages.flatMap Prod.snd

/-- No read is pending; or one is, into the room behind what the node holds; or
one has failed, and the session is deaf. -/
inductive Receiving : Receiver → Prop
  | idle {s : Receiver} (hnode : s.recvNode = none) (hpending : s.recvPending = false)
      (hout : s.outstanding = []) (hreceived : s.received = s.taken) : Receiving s
  | reading {s : Receiver} (node : RecvNode) (path : ReadPath)
      (hnode : s.recvNode = some node) (hpending : s.recvPending = true)
      (hout : s.outstanding = [⟨path, node.curLen, recvSize - node.curLen⟩])
      (hlt : node.curLen < recvSize)
      (hreceived : s.received = s.taken ++ node.msg.toList.take node.curLen) :
      Receiving s
  | deaf {s : Receiver} (node : RecvNode) (hnode : s.recvNode = some node)
      (hpending : s.recvPending = true) (hout : s.outstanding = [])
      (hlt : node.curLen < recvSize)
      (hreceived : s.received = s.taken ++ node.msg.toList.take node.curLen) :
      Receiving s

/-- Every message of the first path fills its node, and none of the second is longer
than it. -/
def Receiver.Sized (s : Receiver) : Prop :=
  ∀ m ∈ s.messages, m.2.length ≤ recvSize ∧ (m.1 = .some → m.2.length = recvSize)

/-- The bytes of a read continue what the node holds. -/
theorem take_store (msg : Vector UInt8 recvSize) {c : ℕ} {bytes : Bytes}
    (h : c + bytes.length ≤ recvSize) :
    (store msg c bytes).toList.take (c + bytes.length) =
      msg.toList.take c ++ bytes := by
  have hlen : (msg.toList.take c ++ bytes).length = c + bytes.length := by
    rw [List.length_append, List.length_take, Vector.length_toList]
    omega
  rw [toList_store msg h, ← hlen, List.take_left]

section Steps

variable {s : Receiver} {before after : List Read} {r : Read} {bytes : Bytes}

theorem Receiving.read (h : Receiving s) (path : ReadPath)
    (msg : Vector UInt8 recvSize) : Receiving (s.readWith path msg) := by
  rw [Receiver.readWith]
  cases h with
  | idle hnode hpending hout hreceived =>
      rw [if_neg (by simp [hpending])]
      refine .reading ⟨msg, 0⟩ path rfl rfl ?_ recvSize_pos ?_
      · rw [hout]
        rfl
      · rw [List.take_zero, List.append_nil]
        exact hreceived
  | reading node path' hnode hpending hout hlt hreceived =>
      rw [if_pos hpending]
      exact .reading node path' hnode hpending hout hlt hreceived
  | deaf node hnode hpending hout hlt hreceived =>
      rw [if_pos hpending]
      exact .deaf node hnode hpending hout hlt hreceived

/-- Only a pending read can be the outstanding one. -/
theorem Receiving.reading_of_outstanding (h : Receiving s)
    (hsplit : s.outstanding = before ++ r :: after) :
    ∃ node, before ++ after = [] ∧ s.recvNode = some node ∧ s.recvPending = true ∧
      r.offset = node.curLen ∧ r.room = recvSize - node.curLen ∧
      node.curLen < recvSize ∧
      s.received = s.taken ++ node.msg.toList.take node.curLen := by
  cases h with
  | idle hnode hpending hout hreceived => simp [hout] at hsplit
  | deaf node hnode hpending hout hlt hreceived => simp [hout] at hsplit
  | reading node path hnode hpending hout hlt hreceived =>
      rw [hout] at hsplit
      rcases List.singleton_eq_append_iff.mp hsplit with ⟨hbefore, hcons⟩ | ⟨-, hcons⟩
      · obtain ⟨rfl, hafter⟩ := List.cons.inj hcons
        refine ⟨node, ?_, hnode, hpending, rfl, rfl, hlt, hreceived⟩
        rw [hbefore, hafter, List.append_nil]
      · cases hcons

/-- The node is let go with all that it holds. -/
theorem receiving_release {node : RecvNode} (path : ReadPath)
    (hout : s.outstanding = [])
    (hreceived : s.received = s.taken ++ node.msg.toList.take node.curLen) :
    Receiving (s.release path node) := by
  refine .idle rfl rfl hout ?_
  simp only [Receiver.release, Receiver.taken, List.flatMap_append,
    List.flatMap_singleton]
  exact hreceived

theorem sized_release {node : RecvNode} {path : ReadPath} (h : s.Sized)
    (hle : node.curLen ≤ recvSize) (hsome : path = .some → node.curLen = recvSize) :
    (s.release path node).Sized := by
  have hlen : (node.msg.toList.take node.curLen).length = node.curLen := by
    rw [List.length_take, Vector.length_toList]
    exact Nat.min_eq_left hle
  intro m hm
  rcases List.mem_append.mp hm with hm | hm
  · exact h m hm
  · rw [List.mem_singleton.mp hm]
    simp only [hlen]
    exact ⟨hle, hsome⟩

theorem Receiving.complete (h : Receiving s) (hsized : s.Sized)
    (hsplit : s.outstanding = before ++ r :: after)
    (hroom : bytes.length ≤ r.room) :
    Receiving ((({ s with outstanding := before ++ after } : Receiver).fill r.offset
      bytes).callBack r.path bytes.length) ∧
    Receiver.Sized ((({ s with outstanding := before ++ after } : Receiver).fill
      r.offset bytes).callBack r.path bytes.length) := by
  obtain ⟨node, hrest, hnode, hpending, hoffset, hsize, hlt, hreceived⟩ :=
    h.reading_of_outstanding hsplit
  rw [hsize] at hroom
  let filled : RecvNode :=
    ⟨store node.msg node.curLen bytes, node.curLen + bytes.length⟩
  have hle : node.curLen + bytes.length ≤ recvSize := by omega
  have hheld : s.received ++ bytes =
      s.taken ++ filled.msg.toList.take filled.curLen := by
    rw [take_store node.msg hle, hreceived, List.append_assoc]
  cases hpath : r.path with
  | some =>
      simp only [Receiver.callBack, Receiver.readCallBack, Receiver.fill, hnode,
        Option.map_some, hoffset, hrest, List.nil_append]
      split
      · next hmore =>
          exact ⟨.reading filled .some rfl hpending rfl hmore hheld, hsized⟩
      · next hfull =>
          exact ⟨receiving_release .some rfl hheld,
            sized_release hsized hle fun _ => le_antisymm hle (not_lt.mp hfull)⟩
  | all =>
      simp only [Receiver.callBack, Receiver.readAllCallBack, Receiver.fill, hnode,
        Option.map_some, hoffset, hrest]
      exact ⟨receiving_release .all rfl hheld,
        sized_release hsized hle fun h => by cases h⟩

theorem Receiving.fails (h : Receiving s) (hsized : s.Sized)
    (hsplit : s.outstanding = before ++ r :: after) :
    Receiving (({ s with outstanding := before ++ after } : Receiver).callBackFails
      r.path) ∧
    Receiver.Sized (({ s with outstanding := before ++ after } : Receiver).callBackFails
      r.path) := by
  obtain ⟨node, hrest, hnode, hpending, -, -, hlt, hreceived⟩ :=
    h.reading_of_outstanding hsplit
  cases hpath : r.path with
  | some =>
      simp only [Receiver.callBackFails]
      exact ⟨.deaf node hnode hpending hrest hlt hreceived, hsized⟩
  | all =>
      simp only [Receiver.callBackFails, Receiver.readAllCallBack, hnode, hrest,
        Nat.add_zero]
      exact ⟨receiving_release .all rfl hreceived,
        sized_release hsized hlt.le fun h => by cases h⟩

theorem Receiving.step {t : Receiver} (h : Receiving s) (hsized : s.Sized)
    (hstep : ReceiverStep s t) : Receiving t ∧ t.Sized := by
  have hread (path : ReadPath) (msg : Vector UInt8 recvSize) :
      Receiving (s.readWith path msg) ∧ (s.readWith path msg).Sized := by
    refine ⟨h.read path msg, ?_⟩
    rw [Receiver.readWith]
    split
    · exact hsized
    · exact hsized
  cases hstep with
  | readFromSocket msg => exact hread .some msg
  | readAllFromSocket msg => exact hread .all msg
  | complete hsplit _ hroom => exact h.complete hsized hsplit hroom
  | fails hsplit => exact h.fails hsized hsplit

theorem ReceiverReachable.receiving (h : ReceiverReachable s) :
    Receiving s ∧ s.Sized := by
  refine invariant_of_run (I := fun s => Receiving s ∧ s.Sized) h ?_ ?_
  · exact ⟨.idle rfl rfl rfl rfl, fun m hm => by cases hm⟩
  · rintro s t ⟨hreceiving, hsized⟩ hstep
    exact hreceiving.step hsized hstep

end Steps

/-! ## Whole runs -/

/-- A session that a failed `ReadCallBack` has left reads nothing any more. -/
theorem deaf_forever {s t : Receiver} (hpending : s.recvPending = true)
    (hout : s.outstanding = []) (hrun : ReflTransGen ReceiverStep s t) : t = s := by
  refine invariant_of_run (I := fun t => t = s) hrun rfl ?_
  rintro _ t rfl hstep
  cases hstep with
  | readFromSocket msg =>
      rw [Receiver.readFromSocket, Receiver.readWith, if_pos hpending]
  | readAllFromSocket msg =>
      rw [Receiver.readAllFromSocket, Receiver.readWith, if_pos hpending]
  | complete hsplit _ _ => simp [hout] at hsplit
  | fails hsplit => simp [hout] at hsplit

/-- When the read of `ReadFromSocket` that is outstanding fails, the session is left
for ever as `ReadCallBack` has left it. -/
theorem Receiving.deaf_of_fails {s : Receiver} (h : Receiving s)
    {before after : List Read} {r : Read} (hsplit : s.outstanding = before ++ r :: after)
    (hpath : r.path = .some) {t : Receiver}
    (hrun : ReflTransGen ReceiverStep
      (({ s with outstanding := before ++ after } : Receiver).callBackFails r.path) t) :
    t = ({ s with outstanding := before ++ after } : Receiver).callBackFails r.path := by
  obtain ⟨-, hrest, -, hpending, -⟩ := h.reading_of_outstanding hsplit
  rw [hpath] at hrun ⊢
  exact deaf_forever hpending hrest hrun

/-- However the two ways to read are mixed and whatever the reads bring: at most one
read is outstanding, and then `_recvnode` points to a node, into whose free room the
read goes.  The messages, followed by what the node holds, are the bytes received,
in order, without a loss; those of `ReadFromSocket` fill their nodes.  In whatever
state a read of `ReadFromSocket` fails, the state that `ReadCallBack` leaves then is
the last one: the session will never read again. -/
theorem ReceiverReachable.keeps_stream {s : Receiver} (h : ReceiverReachable s) :
    s.outstanding.length ≤ 1 ∧
      (∀ r ∈ s.outstanding, ∃ node, s.recvNode = some node ∧
        r.offset = node.curLen ∧ 0 < r.room ∧ r.offset + r.room = recvSize) ∧
      s.received = s.messages.flatMap Prod.snd ++
        (s.recvNode.elim [] fun node => node.msg.toList.take node.curLen) ∧
      (∀ m ∈ s.messages, m.2.length ≤ recvSize ∧
        (m.1 = .some → m.2.length = recvSize)) ∧
      ∀ before r after, s.outstanding = before ++ r :: after → r.path = .some →
        ∀ t, ReflTransGen ReceiverStep (({ s with
          outstanding := before ++ after } : Receiver).callBackFails r.path) t →
          t = ({ s with
            outstanding := before ++ after } : Receiver).callBackFails r.path := by
  obtain ⟨hreceiving, hsized⟩ := h.receiving
  refine ⟨?_, ?_, ?_, hsized, fun _ _ _ hsplit hpath _ hrun =>
    hreceiving.deaf_of_fails hsplit hpath hrun⟩
  · cases hreceiving with
    | idle _ _ hout _ => simp [hout]
    | reading _ _ _ _ hout _ _ => simp [hout]
    | deaf _ _ _ hout _ _ => simp [hout]
  · intro r hr
    obtain ⟨before, after, hsplit⟩ := List.append_of_mem hr
    obtain ⟨node, -, hnode, -, hoffset, hroom, hlt, -⟩ :=
      hreceiving.reading_of_outstanding hsplit
    exact ⟨node, hnode, hoffset, by omega, by omega⟩
  · cases hreceiving with
    | idle hnode _ _ hreceived =>
        rw [hnode, Option.elim_none, List.append_nil]
        exact hreceived
    | reading node _ hnode _ _ _ hreceived =>
        rw [hnode]
        exact hreceived
    | deaf node hnode _ _ _ hreceived =>
        rw [hnode]
        exact hreceived

/-- A byte is read, and the next read fails. -/
theorem keeps_stream_deaf :
    ∃ s t : Receiver, ReceiverReachable s ∧ ReceiverStep s t ∧ t.received = [1] ∧
      t.messages = [] ∧ ∀ u, ReflTransGen ReceiverStep t u → u = t := by
  let msg : Vector UInt8 recvSize := Vector.replicate recvSize 0
  let s₁ : Receiver := ⟨some ⟨msg, 0⟩, true, [⟨.some, 0, recvSize⟩], [], []⟩
  let node : RecvNode := ⟨store msg 0 [1], 1⟩
  let s₂ : Receiver := ⟨some node, true, [⟨.some, 1, recvSize - 1⟩], [1], []⟩
  let s₃ : Receiver := ⟨some node, true, [], [1], []⟩
  have h₁ : ReceiverStep .start s₁ := .readFromSocket msg
  have h₂ : ReceiverStep s₁ s₂ :=
    @ReceiverStep.complete s₁ [] [] ⟨.some, 0, recvSize⟩ [1] rfl (by simp) recvSize_pos
  have h₃ : ReceiverStep s₂ s₃ :=
    @ReceiverStep.fails s₂ [] [] ⟨.some, 1, recvSize - 1⟩ rfl
  have hreach : ReceiverReachable s₂ := (ReflTransGen.single h₁).tail h₂
  exact ⟨s₂, s₃, hreach, h₃, rfl, rfl,
    hreach.keeps_stream.2.2.2.2 [] ⟨.some, 1, recvSize - 1⟩ [] rfl rfl⟩

end BackendLab.PartialWrite

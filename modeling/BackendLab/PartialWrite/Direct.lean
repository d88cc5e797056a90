import BackendLab.PartialWrite.Queued

/-!
# Writing without a queue

`WriteToSocket` keeps the node of the string that it was given last in `_sendnode`.
Its callback is bound to the node that its write was started for, counts the bytes
there, and goes on with `_sendnode`, which may be another one by then: a string that
is written while another one is still being written takes its place.
-/

namespace BackendLab.PartialWrite

open Support Relation

/-- A write that is outstanding, with the node that its callback is bound to. -/
structure DirectWrite where
  node : ℕ
  buffer : Bytes
  transferred : Option ℕ
  deriving DecidableEq, Repr

/-- The nodes, in the order in which they were made, the one `_sendnode` points to,
the bytes that the socket has accepted and the strings of the calls so far. -/
structure Direct where
  nodes : List MsgNode
  sendNode : Option ℕ
  outstanding : List DirectWrite
  stream : Bytes
  calls : List Bytes
  deriving DecidableEq, Repr

namespace Direct

def start : Direct := ⟨[], none, [], [], []⟩

/-- `async_write_some` for what `_sendnode` has left. -/
def startWrite (s : Direct) : Direct :=
  match s.sendNode with
  | none => s
  | some k =>
      match s.nodes[k]? with
      | none => s
      | some node =>
          { s with outstanding := s.outstanding ++ [⟨k, node.unsent, none⟩] }

/-- The string `buf` is given to `_sendnode` as the node that its constructor has
made. -/
def place (s : Direct) (buf : Bytes) : Option MsgNode → Direct
  -- The constructor throws before `_sendnode` is changed.
  | none => { s with calls := s.calls ++ [buf] }
  | some node =>
      startWrite
        { s with
          nodes := s.nodes ++ [node]
          sendNode := some s.nodes.length
          calls := s.calls ++ [buf] }

def writeToSocket (s : Direct) (buf : Bytes) : Direct :=
  s.place buf (MsgNode.make buf (toInt32 buf.length))

/-- `WriteCallBack`, bound to the node `k`, without an error. -/
def writeCallBack (s : Direct) (k bytesTransfered : ℕ) : Direct :=
  match s.nodes[k]? with
  | none => s
  | some node =>
      if bytesTransfered + node.curLen < node.totalLen then
        startWrite
          { s with
            nodes := s.nodes.set k
              { node with curLen := toInt32 (node.curLen + bytesTransfered) } }
      else s

end Direct

theorem Direct.writeToSocket_of_queues {s : Direct} {buf : Bytes} (h : Queues buf) :
    s.writeToSocket buf =
      startWrite
        { s with
          nodes := s.nodes ++ [.whole (copied buf)]
          sendNode := some s.nodes.length
          calls := s.calls ++ [buf] } := by
  rw [writeToSocket, MsgNode.make_of_queues h, place]

theorem Direct.writeToSocket_of_not_queues {s : Direct} {buf : Bytes}
    (h : ¬ Queues buf) :
    s.writeToSocket buf = { s with calls := s.calls ++ [buf] } := by
  rw [writeToSocket, MsgNode.make_of_not_queues h, place]

/-- A call, a write of which the socket accepts some bytes, a callback, or a write
that fails, whose callback does nothing. -/
inductive DirectEvent where
  | write (buf : Bytes)
  | accept
  | callBack
  | fails
  deriving DecidableEq, Repr

inductive DirectStep : Direct → DirectEvent → Direct → Prop
  | write {s : Direct} (buf : Bytes) :
      DirectStep s (.write buf) (s.writeToSocket buf)
  | accept {s : Direct} {before after : List DirectWrite} {k n : ℕ} {buffer : Bytes}
      (h : s.outstanding = before ++ ⟨k, buffer, none⟩ :: after)
      (hn : n ≤ buffer.length) :
      DirectStep s .accept
        { s with
          outstanding := before ++ ⟨k, buffer, some n⟩ :: after
          stream := s.stream ++ buffer.take n }
  | callBack {s : Direct} {before after : List DirectWrite} {k n : ℕ}
      {buffer : Bytes} (h : s.outstanding = before ++ ⟨k, buffer, some n⟩ :: after) :
      DirectStep s .callBack
        (({ s with outstanding := before ++ after } : Direct).writeCallBack k n)
  | fails {s : Direct} {before after : List DirectWrite} {w : DirectWrite}
      (h : s.outstanding = before ++ w :: after) :
      DirectStep s .fails { s with outstanding := before ++ after }

def DirectReachable (s : Direct) : Prop :=
  ReflTransGen (fun s t => ∃ e, DirectStep s e t) .start s

/-- No string is written while a write is outstanding, no write fails, and an `int`
can hold the length of every string. -/
def InTurn (s : Direct) : DirectEvent → Prop
  | .write buf => s.outstanding = [] ∧ buf.length < 2 ^ 31
  | .accept | .callBack => True
  | .fails => False

/-- The states of runs in which every call is made in its turn. -/
def ReachableInTurn (s : Direct) : Prop :=
  ReflTransGen (fun s t => ∃ e, DirectStep s e t ∧ InTurn s e) .start s

/-! ## Every write stays inside its node -/

/-- The node is the copy of a string, of which the first `_cur_len` bytes count as
sent. -/
def NodeOf (calls : List Bytes) (node : MsgNode) : Prop :=
  ∃ buf ∈ calls, ∃ c ≤ (copied buf).length,
    node = ⟨copied buf, (copied buf).length, c⟩

/-- The buffer is what is left of the copy of a string. -/
def BufferOf (calls : List Bytes) (buffer : Bytes) : Prop :=
  ∃ buf ∈ calls, ∃ c ≤ (copied buf).length, buffer = (copied buf).drop c

structure Inside (s : Direct) : Prop where
  nodes : ∀ node ∈ s.nodes, NodeOf s.calls node
  buffers : ∀ w ∈ s.outstanding, BufferOf s.calls w.buffer ∧
    w.transferred.getD 0 ≤ w.buffer.length

theorem NodeOf.bufferOf {calls : List Bytes} {node : MsgNode} (h : NodeOf calls node) :
    BufferOf calls node.unsent := by
  obtain ⟨buf, hbuf, c, hc, rfl⟩ := h
  exact ⟨buf, hbuf, c, hc, MsgNode.unsent_eq_drop _ _⟩

namespace Inside

variable {s : Direct}

theorem startWrite (h : Inside s) : Inside s.startWrite := by
  rw [Direct.startWrite]
  split
  · exact h
  · next k hk =>
      split
      · exact h
      · next node hnode =>
          refine ⟨h.nodes, ?_⟩
          intro w hw
          rcases List.mem_append.mp hw with hw | hw
          · exact h.buffers w hw
          · rw [List.mem_singleton.mp hw]
            refine ⟨(h.nodes node (List.mem_of_getElem? hnode)).bufferOf, ?_⟩
            rw [Option.getD_none]
            exact Nat.zero_le _

theorem write (h : Inside s) (buf : Bytes) : Inside (s.writeToSocket buf) := by
  have hgrows : ∀ {node}, NodeOf s.calls node → NodeOf (s.calls ++ [buf]) node := by
    rintro node ⟨text, htext, hnode⟩
    exact ⟨text, List.mem_append_left _ htext, hnode⟩
  have hbuffers : ∀ w ∈ s.outstanding, BufferOf (s.calls ++ [buf]) w.buffer ∧
      w.transferred.getD 0 ≤ w.buffer.length := by
    intro w hw
    obtain ⟨⟨text, htext, hbuffer⟩, hmost⟩ := h.buffers w hw
    exact ⟨⟨text, List.mem_append_left _ htext, hbuffer⟩, hmost⟩
  by_cases hqueues : Queues buf
  · rw [Direct.writeToSocket_of_queues hqueues]
    apply startWrite
    refine ⟨?_, hbuffers⟩
    intro node hnode
    rcases List.mem_append.mp hnode with hnode | hnode
    · exact hgrows (h.nodes node hnode)
    · rw [List.mem_singleton.mp hnode]
      exact ⟨buf, List.mem_append_right _ (List.mem_singleton_self buf), 0,
        Nat.zero_le _, rfl⟩
  · rw [Direct.writeToSocket_of_not_queues hqueues]
    exact ⟨fun node hnode => hgrows (h.nodes node hnode), hbuffers⟩

/-- A node counts on only as long as something of it is left. -/
theorem callBack (h : Inside s) (k n : ℕ) : Inside (s.writeCallBack k n) := by
  rw [Direct.writeCallBack]
  split
  · exact h
  · next node hnode =>
      split
      · next hless =>
          apply startWrite
          refine ⟨?_, h.buffers⟩
          intro other hother
          rcases List.mem_or_eq_of_mem_set hother with hother | rfl
          · exact h.nodes other hother
          · obtain ⟨buf, hbuf, c, hc, rfl⟩ := h.nodes node (List.mem_of_getElem? hnode)
            have hshort := length_copied_lt buf
            simp only at hless
            have hcur : toInt32 ((c : ℤ) + n) = ((c + n : ℕ) : ℤ) := by
              rw [toInt32_eq_self (by omega) (by omega), Int.natCast_add]
            exact ⟨buf, hbuf, c + n, by omega, by rw [hcur]⟩
      · exact h

theorem without (h : Inside s) {before after : List DirectWrite} {w : DirectWrite}
    (hsplit : s.outstanding = before ++ w :: after) :
    Inside { s with outstanding := before ++ after } := by
  refine ⟨h.nodes, ?_⟩
  intro v hv
  apply h.buffers v
  rw [hsplit, List.mem_append, List.mem_cons]
  rcases List.mem_append.mp hv with hv | hv
  · exact .inl hv
  · exact .inr (.inr hv)

theorem step {t : Direct} {e : DirectEvent} (h : Inside s)
    (hstep : DirectStep s e t) : Inside t := by
  cases hstep with
  | write buf => exact h.write buf
  | @accept before after k n buffer hsplit hn =>
      refine ⟨h.nodes, ?_⟩
      intro w hw
      have hbefore := h.buffers ⟨k, buffer, none⟩ (by simp [hsplit])
      rcases List.mem_append.mp hw with hw | hw
      · exact h.buffers w (by simp [hsplit, hw])
      · rcases List.mem_cons.mp hw with rfl | hw
        · exact ⟨hbefore.1, hn⟩
        · exact h.buffers w (by simp [hsplit, hw])
  | callBack hsplit => exact (h.without hsplit).callBack _ _
  | fails hsplit => exact h.without hsplit

end Inside

theorem DirectReachable.inside {s : Direct} (h : DirectReachable s) : Inside s := by
  refine invariant_of_run h ?_ ?_
  · constructor
    · intro node hnode
      cases hnode
    · intro w hw
      cases hw
  · rintro s t hs ⟨e, hstep⟩
    exact hs.step hstep

/-! ## Calls in their turn -/

/-- Nothing is to be written, or `msg`, of which the first `c` bytes and what the
outstanding write has had accepted are in the stream. -/
inductive Alone : Direct → Prop
  | idle {s : Direct} (hout : s.outstanding = [])
      (hstream : s.stream = s.calls.flatten) : Alone s
  | writing {s : Direct} (done msg : Bytes) (k c : ℕ) (transferred : Option ℕ)
      (hsend : s.sendNode = some k)
      (hnode : s.nodes[k]? = some ⟨msg, msg.length, c⟩)
      (hout : s.outstanding = [⟨k, msg.drop c, transferred⟩])
      (hle : c + transferred.getD 0 ≤ msg.length)
      (hstream : s.stream = done ++ msg.take (c + transferred.getD 0))
      (hcalls : s.calls.flatten = done ++ msg)
      (hshort : msg.length < 2 ^ 31) : Alone s

/-- What `_sendnode` has left is written. -/
theorem Direct.startWrite_eq {s : Direct} {msg : Bytes} {k c : ℕ}
    (hsend : s.sendNode = some k)
    (hnode : s.nodes[k]? = some ⟨msg, msg.length, c⟩) :
    s.startWrite =
      { s with outstanding := s.outstanding ++ [⟨k, msg.drop c, none⟩] } := by
  simp only [startWrite, hsend, hnode, MsgNode.unsent_eq_drop]

namespace Alone

variable {s : Direct} {before after : List DirectWrite} {k n : ℕ} {buffer : Bytes}

theorem write (h : Alone s) {buf : Bytes} (hout : s.outstanding = [])
    (hbuf : buf.length < 2 ^ 31) : Alone (s.writeToSocket buf) := by
  have hstream : s.stream = s.calls.flatten := by
    cases h with
    | idle _ hstream => exact hstream
    | writing _ _ _ _ _ _ _ hout' => simp [hout'] at hout
  rw [Direct.writeToSocket_of_queues (queues_of_lt hbuf), copied_of_lt hbuf]
  have hnode : (s.nodes ++ [MsgNode.whole buf])[s.nodes.length]? =
      some ⟨buf, buf.length, (0 : ℕ)⟩ := by
    rw [List.getElem?_append_right (Nat.le_refl _), Nat.sub_self]
    rfl
  rw [@Direct.startWrite_eq { s with
    nodes := s.nodes ++ [MsgNode.whole buf]
    sendNode := some s.nodes.length
    calls := s.calls ++ [buf] } buf s.nodes.length 0 rfl hnode]
  refine .writing s.stream buf s.nodes.length 0 none rfl hnode ?_ (Nat.zero_le _) ?_
    ?_ hbuf
  · rw [hout, List.nil_append]
  · simp
  · simp [hstream]

theorem accept (h : Alone s)
    (hsplit : s.outstanding = before ++ ⟨k, buffer, none⟩ :: after)
    (hn : n ≤ buffer.length) :
    Alone
      { s with
        outstanding := before ++ ⟨k, buffer, some n⟩ :: after
        stream := s.stream ++ buffer.take n } := by
  cases h with
  | idle hout _ => simp [hout] at hsplit
  | writing done msg k' c transferred hsend hnode hout hle hstream hcalls hshort =>
      rw [hout] at hsplit
      rcases List.singleton_eq_append_iff.mp hsplit with ⟨rfl, hcons⟩ | ⟨-, hcons⟩
      · obtain ⟨hwrite, rfl⟩ := List.cons.inj hcons
        obtain ⟨rfl, rfl, rfl⟩ := DirectWrite.mk.inj hwrite
        rw [List.length_drop] at hn
        rw [Option.getD_none, Nat.add_zero] at hle hstream
        refine .writing done msg k c (some n) hsend hnode rfl ?_ ?_ hcalls hshort
        · rw [Option.getD_some]
          omega
        · simp only [hstream, Option.getD_some, List.take_add, List.append_assoc]
      · cases hcons

/-- The callback finds the node that it is bound to in `_sendnode`. -/
theorem callBack (h : Alone s)
    (hsplit : s.outstanding = before ++ ⟨k, buffer, some n⟩ :: after) :
    Alone (({ s with outstanding := before ++ after } : Direct).writeCallBack k n) := by
  cases h with
  | idle hout _ => simp [hout] at hsplit
  | writing done msg k' c transferred hsend hnode hout hle hstream hcalls hshort =>
      rw [hout] at hsplit
      rcases List.singleton_eq_append_iff.mp hsplit with ⟨rfl, hcons⟩ | ⟨-, hcons⟩
      · obtain ⟨hwrite, rfl⟩ := List.cons.inj hcons
        obtain ⟨rfl, rfl, rfl⟩ := DirectWrite.mk.inj hwrite
        rw [Option.getD_some] at hle hstream
        have hcur : toInt32 ((c : ℤ) + n) = ((c + n : ℕ) : ℤ) := by
          rw [toInt32_eq_self (by omega) (by omega), Int.natCast_add]
        simp only [Direct.writeCallBack, hnode, List.append_nil, hcur]
        by_cases hmore : c + n < msg.length
        · rw [if_pos (by omega)]
          have hk : k < s.nodes.length := by
            obtain ⟨hk, -⟩ := List.getElem?_eq_some_iff.mp hnode
            exact hk
          have hset : (s.nodes.set k ⟨msg, msg.length, (c + n : ℕ)⟩)[k]? =
              some ⟨msg, msg.length, (c + n : ℕ)⟩ := by
            rw [List.getElem?_set_self hk]
          rw [@Direct.startWrite_eq { s with
            outstanding := []
            nodes := s.nodes.set k ⟨msg, msg.length, (c + n : ℕ)⟩ } msg k (c + n)
            hsend hset]
          exact .writing done msg k (c + n) none hsend hset rfl hle hstream hcalls
            hshort
        -- All of `msg` is in the stream.
        · rw [if_neg (by omega)]
          have hall : c + n = msg.length := by omega
          rw [hall, List.take_length] at hstream
          exact .idle rfl (hstream.trans hcalls.symm)
      · cases hcons

theorem step {t : Direct} {e : DirectEvent} (h : Alone s) (hstep : DirectStep s e t)
    (hturn : InTurn s e) : Alone t := by
  cases hstep with
  | write buf => exact h.write hturn.1 hturn.2
  | accept hsplit hn => exact h.accept hsplit hn
  | callBack hsplit => exact h.callBack hsplit
  | fails hsplit => exact hturn.elim

end Alone

theorem ReachableInTurn.alone {s : Direct} (h : ReachableInTurn s) : Alone s := by
  refine invariant_of_run h (.idle rfl rfl) ?_
  rintro s t hs ⟨e, hstep, hturn⟩
  exact hs.step hstep hturn

/-- Whatever calls overlap and whatever the socket accepts or refuses, every write
that is started is given what is left of the copy of a string, so that none reads
outside its node.  If every call is made in its turn, at most one write is
outstanding, and the stream is the beginning of the strings, in order, and all of
them when none is. -/
theorem direct_writes (s : Direct) :
    (DirectReachable s → ∀ w ∈ s.outstanding,
      (∃ buf ∈ s.calls, ∃ c ≤ (copied buf).length, w.buffer = (copied buf).drop c) ∧
        w.transferred.getD 0 ≤ w.buffer.length) ∧
    (ReachableInTurn s →
      s.outstanding.length ≤ 1 ∧ s.stream <+: s.calls.flatten ∧
        (s.outstanding = [] → s.stream = s.calls.flatten)) := by
  constructor
  · intro h
    exact h.inside.buffers
  · intro h
    cases h.alone with
    | idle hout hstream => simp [hout, hstream]
    | writing done msg k c transferred hsend hnode hout hle hstream hcalls hshort =>
        refine ⟨by simp [hout], ?_, by simp [hout]⟩
        rw [hstream, hcalls, List.prefix_append_right_inj]
        exact List.take_prefix _ _

/-- A string of two bytes is accepted byte by byte. -/
theorem direct_writes_two :
    ∃ s : Direct, ReachableInTurn s ∧ s.calls = [[1, 2]] ∧ s.stream = [1, 2] := by
  let w (c : ℕ) (transferred : Option ℕ) : DirectWrite :=
    ⟨0, [1, 2].drop c, transferred⟩
  let node (c : ℕ) : MsgNode := ⟨[1, 2], 2, c⟩
  let s₁ : Direct := ⟨[node 0], some 0, [w 0 none], [], [[1, 2]]⟩
  let s₂ : Direct := ⟨[node 0], some 0, [w 0 (some 1)], [1], [[1, 2]]⟩
  let s₃ : Direct := ⟨[node 1], some 0, [w 1 none], [1], [[1, 2]]⟩
  let s₄ : Direct := ⟨[node 1], some 0, [w 1 (some 1)], [1, 2], [[1, 2]]⟩
  let s₅ : Direct := ⟨[node 1], some 0, [], [1, 2], [[1, 2]]⟩
  have hwrite : Direct.start.writeToSocket [1, 2] = s₁ := by decide
  have hmore : ({ s₂ with outstanding := [] } : Direct).writeCallBack 0 1 = s₃ := by
    decide
  have hdone : ({ s₄ with outstanding := [] } : Direct).writeCallBack 0 1 = s₅ := by
    decide
  have h₁ : DirectStep .start (.write [1, 2]) s₁ := hwrite ▸ .write [1, 2]
  have h₂ : DirectStep s₁ .accept s₂ :=
    @DirectStep.accept s₁ [] [] 0 1 [1, 2] rfl (by decide)
  have h₃ : DirectStep s₂ .callBack s₃ :=
    hmore ▸ @DirectStep.callBack s₂ [] [] 0 1 [1, 2] rfl
  have h₄ : DirectStep s₃ .accept s₄ :=
    @DirectStep.accept s₃ [] [] 0 1 [2] rfl (by decide)
  have h₅ : DirectStep s₄ .callBack s₅ :=
    hdone ▸ @DirectStep.callBack s₄ [] [] 0 1 [2] rfl
  have hreach : ReachableInTurn s₅ :=
    ((((ReflTransGen.single ⟨_, h₁, rfl, by decide⟩).tail ⟨_, h₂, trivial⟩).tail
      ⟨_, h₃, trivial⟩).tail ⟨_, h₄, trivial⟩).tail ⟨_, h₅, trivial⟩
  exact ⟨s₅, hreach, rfl, ((direct_writes s₅).2 hreach).2.2 rfl⟩

end BackendLab.PartialWrite

import BackendLab.Support.CString
import BackendLab.Support.Runs
import Mathlib.Data.Set.Insert

/-!
# Writing in parts

The class `Session` of the asynchronous server whose writes may be accepted in
part.  `WriteToSocketWithQueue` and `WriteAllToSocket` queue a copy of a string,
and start a write if none is pending.  Their callbacks differ in what they make of
the number of bytes that have been transferred.

A write is given a buffer.  The socket accepts some of its bytes, and the callback
is called with their number later.
-/

namespace BackendLab.PartialWrite

open Support Relation

structure MsgNode where
  msg : Bytes
  totalLen : ℤ
  curLen : ℤ
  deriving DecidableEq, Repr

/-- The constructor of a node to be sent.  An array of a negative length is not
allocated: `new` throws. -/
def MsgNode.make (msg : Bytes) (totalLen : ℤ) : Option MsgNode :=
  if totalLen < 0 then none else some ⟨msg.take totalLen.toNat, totalLen, 0⟩

/-- The buffer `_msg + _cur_len` of `_total_len - _cur_len` bytes. -/
def MsgNode.unsent (node : MsgNode) : Bytes :=
  (node.msg.drop node.curLen.toNat).take (node.totalLen - node.curLen).toNat

/-- A write that is outstanding, and the number of bytes that the socket has
accepted of its buffer. -/
structure Write where
  buffer : Bytes
  transferred : Option ℕ
  deriving DecidableEq, Repr

/-- The part of a session that writes, the bytes that the socket has accepted, the
strings of the calls so far and the numbers of bytes that the callbacks have been
given. -/
structure Session where
  sendQueue : List MsgNode
  sendPending : Bool
  outstanding : List Write
  stream : Bytes
  calls : List Bytes
  reported : List ℕ
  deriving DecidableEq, Repr

namespace Session

def start : Session := ⟨[], false, [], [], [], []⟩

/-- `async_write_some`, or `async_send`. -/
def startWrite (s : Session) (buffer : Bytes) : Session :=
  { s with outstanding := s.outstanding ++ [⟨buffer, none⟩] }

/-- The string `buf` is queued as the node that its constructor has made.  The
first write is given the caller's string. -/
def emplace (s : Session) (buf : Bytes) : Option MsgNode → Session
  -- The constructor throws before anything is put into the queue.
  | none => { s with calls := s.calls ++ [buf] }
  | some node =>
      let t : Session :=
        { s with
          sendQueue := s.sendQueue ++ [node]
          calls := s.calls ++ [buf] }
      if s.sendPending then t else { t.startWrite buf with sendPending := true }

/-- The length of a string is converted to `int`. -/
def enqueue (s : Session) (buf : Bytes) : Session :=
  s.emplace buf (MsgNode.make buf (toInt32 buf.length))

def writeToSocketWithQueue (s : Session) (buf : Bytes) : Session :=
  s.enqueue buf

def writeAllToSocket (s : Session) (buf : Bytes) : Session :=
  s.enqueue buf

/-- The end of both callbacks: the front is popped, and what is behind it is
written. -/
def pop (s : Session) : Session :=
  match s.sendQueue.tail with
  | [] => { s with sendQueue := [], sendPending := false }
  | next :: rest => startWrite { s with sendQueue := next :: rest } next.unsent

/-- `WriteCallBackWithQueue`, without an error. -/
def writeCallBackWithQueue (s : Session) (bytesTransfered : ℕ) : Session :=
  match s.sendQueue with
  -- `front()` of an empty queue is undefined; no run comes here.
  | [] => s
  | front :: rest =>
      let sendData : MsgNode :=
        { front with curLen := toInt32 (front.curLen + bytesTransfered) }
      let t : Session := { s with sendQueue := sendData :: rest }
      if sendData.curLen < sendData.totalLen then t.startWrite sendData.unsent
      else t.pop

/-- `WriteAllCallBack`, without an error: the number of bytes is not looked at. -/
def writeAllCallBack (s : Session) (_bytesTransferred : ℕ) : Session :=
  s.pop

end Session

/-- The two ways to write, which are not to be mixed. -/
inductive Path where
  | withQueue
  | writeAll
  deriving DecidableEq, Repr

def Path.write : Path → Session → Bytes → Session
  | .withQueue => Session.writeToSocketWithQueue
  | .writeAll => Session.writeAllToSocket

def Path.callBack : Path → Session → ℕ → Session
  | .withQueue => Session.writeCallBackWithQueue
  | .writeAll => Session.writeAllCallBack

theorem Path.write_eq (path : Path) (s : Session) (buf : Bytes) :
    path.write s buf = s.enqueue buf := by
  cases path with
  | withQueue => rw [write, Session.writeToSocketWithQueue]
  | writeAll => rw [write, Session.writeAllToSocket]

/-- A call, a write of which the socket accepts any number of bytes up to the size
of its buffer, or a callback, in any order.  The strings are taken from `texts`. -/
inductive Step (path : Path) (texts : Set Bytes) : Session → Session → Prop
  | write {s : Session} {buf : Bytes} (h : buf ∈ texts) :
      Step path texts s (path.write s buf)
  | accept {s : Session} {before after : List Write} {buffer : Bytes} {n : ℕ}
      (h : s.outstanding = before ++ ⟨buffer, none⟩ :: after)
      (hn : n ≤ buffer.length) :
      Step path texts s
        { s with
          outstanding := before ++ ⟨buffer, some n⟩ :: after
          stream := s.stream ++ buffer.take n }
  | callBack {s : Session} {before after : List Write} {buffer : Bytes} {n : ℕ}
      (h : s.outstanding = before ++ ⟨buffer, some n⟩ :: after) :
      Step path texts s
        (path.callBack
          { s with
            outstanding := before ++ after
            reported := s.reported ++ [n] } n)

section Single

variable {path : Path} {texts : Set Bytes} {s : Session} {buffer : Bytes} {n : ℕ}

theorem Step.accept_single (h : s.outstanding = [⟨buffer, none⟩])
    (hn : n ≤ buffer.length) :
    Step path texts s
      { s with
        outstanding := [⟨buffer, some n⟩]
        stream := s.stream ++ buffer.take n } :=
  @Step.accept path texts s [] [] buffer n h hn

theorem Step.callBack_single (h : s.outstanding = [⟨buffer, some n⟩]) :
    Step path texts s
      (path.callBack
        { s with outstanding := [], reported := s.reported ++ [n] } n) :=
  @Step.callBack path texts s [] [] buffer n h

end Single

/-- The session can be reached with strings from `texts`. -/
def Reachable (path : Path) (texts : Set Bytes) (s : Session) : Prop :=
  ReflTransGen (Step path texts) .start s

/-- What has been accepted is the beginning of the strings of the calls, in
order, and all of them if the queue is empty.  At most one write is outstanding,
and one is pending exactly if the queue is not empty. -/
structure Delivers (s : Session) : Prop where
  stream : s.stream <+: s.calls.flatten
  single : s.outstanding.length ≤ 1
  pending : s.sendPending = true ↔ s.sendQueue ≠ []
  complete : s.sendQueue = [] → s.stream = s.calls.flatten

/-! ## Nodes -/

/-- The length of the string is converted to an `int` that is not negative. -/
def Queues (buf : Bytes) : Prop := 0 ≤ toInt32 buf.length

instance (buf : Bytes) : Decidable (Queues buf) :=
  inferInstanceAs (Decidable (0 ≤ toInt32 buf.length))

/-- What is copied of a string. -/
def copied (buf : Bytes) : Bytes := buf.take (toInt32 buf.length).toNat

theorem copied_isPrefix (buf : Bytes) : copied buf <+: buf :=
  List.take_prefix _ _

theorem length_copied_lt (buf : Bytes) : (copied buf).length < 2 ^ 31 := by
  have hrange := toInt32_range buf.length
  have hle : (copied buf).length ≤ (toInt32 buf.length).toNat :=
    List.length_take_le _ _
  omega

theorem length_copied {buf : Bytes} (h : Queues buf) :
    ((copied buf).length : ℤ) = toInt32 buf.length := by
  have hle : toInt32 buf.length ≤ buf.length := by
    unfold toInt32
    omega
  have hlength : (copied buf).length = (toInt32 buf.length).toNat :=
    List.length_take_of_le (by omega)
  rw [hlength, Int.toNat_of_nonneg h]

/-- The node of a string that an `int` can hold the length of. -/
def MsgNode.whole (buf : Bytes) : MsgNode := ⟨buf, buf.length, 0⟩

theorem MsgNode.make_of_queues {buf : Bytes} (h : Queues buf) :
    MsgNode.make buf (toInt32 buf.length) = some (.whole (copied buf)) := by
  rw [make, if_neg (not_lt.mpr h), whole, length_copied h, copied]

theorem MsgNode.make_of_not_queues {buf : Bytes} (h : ¬ Queues buf) :
    MsgNode.make buf (toInt32 buf.length) = none :=
  if_pos (not_le.mp h)

theorem toInt32_length {buf : Bytes} (h : buf.length < 2 ^ 31) :
    toInt32 buf.length = buf.length :=
  toInt32_eq_self (by omega) (by omega)

theorem queues_of_lt {buf : Bytes} (h : buf.length < 2 ^ 31) : Queues buf := by
  rw [Queues, toInt32_length h]
  exact Int.natCast_nonneg _

theorem copied_of_lt {buf : Bytes} (h : buf.length < 2 ^ 31) :
    copied buf = buf := by
  rw [copied, toInt32_length h, Int.toNat_natCast, List.take_length]

theorem MsgNode.make_eq_whole {buf : Bytes} (h : buf.length < 2 ^ 31) :
    MsgNode.make buf (toInt32 buf.length) = some (.whole buf) := by
  rw [make_of_queues (queues_of_lt h), copied_of_lt h]

theorem MsgNode.unsent_eq_drop (msg : Bytes) (c : ℕ) :
    MsgNode.unsent ⟨msg, msg.length, c⟩ = msg.drop c := by
  have hrest : ((msg.length : ℤ) - c).toNat = (msg.drop c).length := by
    rw [List.length_drop]
    omega
  rw [unsent, Int.toNat_natCast, hrest, List.take_length]

theorem MsgNode.unsent_whole (msg : Bytes) :
    (MsgNode.whole msg).unsent = msg :=
  unsent_eq_drop msg 0

theorem Session.emplace_of_pending {s : Session} (h : s.sendPending = true)
    (buf : Bytes) (node : MsgNode) :
    s.emplace buf (some node) =
      { s with
        sendQueue := s.sendQueue ++ [node]
        calls := s.calls ++ [buf] } := by
  rw [emplace, if_pos h]

theorem Session.emplace_of_not_pending {s : Session} (h : s.sendPending = false)
    (buf : Bytes) (node : MsgNode) :
    s.emplace buf (some node) =
      { s with
        sendQueue := s.sendQueue ++ [node]
        calls := s.calls ++ [buf]
        outstanding := s.outstanding ++ [⟨buf, none⟩]
        sendPending := true } := by
  simp [emplace, startWrite, h]

/-- The callback when bytes of the front are left, and when none are. -/
theorem Session.writeCallBackWithQueue_eq {s : Session} {msg : Bytes} {c n : ℕ}
    {rest : List MsgNode} (hqueue : s.sendQueue = ⟨msg, msg.length, c⟩ :: rest)
    (hmsg : msg.length < 2 ^ 31) (hle : c + n ≤ msg.length) {t : Session}
    (ht : t = { s with sendQueue := ⟨msg, msg.length, (c + n : ℕ)⟩ :: rest }) :
    s.writeCallBackWithQueue n =
      if c + n < msg.length then t.startWrite (msg.drop (c + n)) else t.pop := by
  have hcur : toInt32 ((c : ℤ) + n) = ((c + n : ℕ) : ℤ) := by
    rw [toInt32_eq_self (by omega) (by omega), Int.natCast_add]
  simp only [writeCallBackWithQueue, hqueue, hcur, Int.ofNat_lt,
    MsgNode.unsent_eq_drop, ht]

/-- There is only one write that can be the outstanding one. -/
theorem eq_of_outstanding {s : Session} {before after : List Write}
    {given buffer : Bytes} {t u : Option ℕ}
    (hout : s.outstanding = [⟨given, t⟩])
    (hsplit : s.outstanding = before ++ ⟨buffer, u⟩ :: after) :
    before = [] ∧ after = [] ∧ buffer = given ∧ u = t := by
  rw [hout] at hsplit
  rcases List.singleton_eq_append_iff.mp hsplit with ⟨hbefore, hcons⟩ | ⟨-, hcons⟩
  · obtain ⟨hwrite, hafter⟩ := List.cons.inj hcons
    exact ⟨hbefore, hafter, Write.mk.inj hwrite⟩
  · cases hcons

/-! ## The queued path -/

/-- Nothing is to be written, or the front of the queue is `msg`, of which the
first `c` bytes and what the outstanding write has had accepted are in the
stream. -/
inductive Sending : Session → Prop
  | idle {s : Session} (hqueue : s.sendQueue = [])
      (hpending : s.sendPending = false) (hout : s.outstanding = [])
      (hstream : s.stream = s.calls.flatten) : Sending s
  | writing {s : Session} (done msg : Bytes) (rest : List Bytes) (c : ℕ)
      (transferred : Option ℕ)
      (hqueue : s.sendQueue =
        ⟨msg, msg.length, c⟩ :: rest.map MsgNode.whole)
      (hpending : s.sendPending = true)
      (hout : s.outstanding = [⟨msg.drop c, transferred⟩])
      (hle : c + transferred.getD 0 ≤ msg.length)
      (hstream : s.stream = done ++ msg.take (c + transferred.getD 0))
      (hcalls : s.calls.flatten = done ++ (msg ++ rest.flatten))
      (hshort : ∀ m ∈ msg :: rest, m.length < 2 ^ 31) : Sending s

namespace Sending

variable {s : Session}

theorem delivers (h : Sending s) : Delivers s := by
  cases h with
  | idle hqueue hpending hout hstream =>
      refine ⟨?_, ?_, ?_, ?_⟩
      · simp [hstream]
      · rw [hout]
        exact Nat.zero_le 1
      · simp [hpending, hqueue]
      · intro _
        exact hstream
  | writing done msg rest c transferred hqueue hpending hout hle hstream hcalls =>
      refine ⟨?_, ?_, ?_, ?_⟩
      · rw [hstream, hcalls, List.prefix_append_right_inj]
        exact (List.take_prefix _ _).trans (List.prefix_append _ _)
      · rw [hout]
        exact le_rfl
      · simp [hpending, hqueue]
      · intro hempty
        rw [hqueue] at hempty
        cases hempty

theorem enqueue (h : Sending s) {buf : Bytes} (hbuf : buf.length < 2 ^ 31) :
    Sending (s.enqueue buf) := by
  rw [Session.enqueue, MsgNode.make_eq_whole hbuf]
  cases h with
  | idle hqueue hpending hout hstream =>
      rw [Session.emplace_of_not_pending hpending, hqueue, hout]
      refine .writing s.stream buf [] 0 none rfl rfl rfl (Nat.zero_le _) ?_ ?_ ?_
      · simp
      · simp [hstream]
      · simpa using hbuf
  | writing done msg rest c transferred hqueue hpending hout hle hstream hcalls
      hshort =>
      rw [Session.emplace_of_pending hpending, hqueue]
      refine .writing done msg (rest ++ [buf]) c transferred ?_ hpending hout hle
        hstream ?_ ?_
      · simp
      · simp [hcalls]
      · intro m hm
        rw [← List.cons_append, List.mem_append, List.mem_singleton] at hm
        rcases hm with hm | rfl
        · exact hshort m hm
        · exact hbuf

variable {before after : List Write} {buffer : Bytes} {n : ℕ}

theorem accept (h : Sending s)
    (hsplit : s.outstanding = before ++ ⟨buffer, none⟩ :: after)
    (hn : n ≤ buffer.length) :
    Sending
      { s with
        outstanding := before ++ ⟨buffer, some n⟩ :: after
        stream := s.stream ++ buffer.take n } := by
  cases h with
  | idle hqueue hpending hout hstream => simp [hout] at hsplit
  | writing done msg rest c transferred hqueue hpending hout hle hstream hcalls
      hshort =>
      obtain ⟨rfl, rfl, rfl, rfl⟩ := eq_of_outstanding hout hsplit
      rw [List.length_drop] at hn
      rw [Option.getD_none, Nat.add_zero] at hle hstream
      refine .writing done msg rest c (some n) hqueue hpending rfl ?_ ?_ hcalls
        hshort
      · rw [Option.getD_some]
        omega
      · simp only [hstream, Option.getD_some, List.take_add, List.append_assoc]

/-- The callback of the queued path.  The rest of the front is written, or the
front is popped and the next one is written. -/
theorem callBack (h : Sending s)
    (hsplit : s.outstanding = before ++ ⟨buffer, some n⟩ :: after) :
    Sending (Session.writeCallBackWithQueue
      { s with
        outstanding := before ++ after
        reported := s.reported ++ [n] } n) := by
  cases h with
  | idle hqueue hpending hout hstream => simp [hout] at hsplit
  | writing done msg rest c transferred hqueue hpending hout hle hstream hcalls
      hshort =>
      obtain ⟨rfl, rfl, rfl, rfl⟩ := eq_of_outstanding hout hsplit
      rw [Option.getD_some] at hle hstream
      have hmsg : msg.length < 2 ^ 31 := hshort msg List.mem_cons_self
      let t : Session := { s with outstanding := [], reported := s.reported ++ [n] }
      rw [List.append_nil,
        Session.writeCallBackWithQueue_eq (s := t) hqueue hmsg hle rfl]
      by_cases hrest : c + n < msg.length
      · rw [if_pos hrest]
        exact .writing done msg rest (c + n) none rfl hpending rfl hle hstream
          hcalls hshort
      -- All of `msg` is in the stream, so it belongs to what is done.
      · have hall : c + n = msg.length := by omega
        rw [hall, List.take_length] at hstream
        rw [if_neg hrest, Session.pop]
        cases rest with
        | nil =>
            refine .idle rfl rfl rfl ?_
            rw [List.flatten_nil, List.append_nil, ← hstream] at hcalls
            exact hcalls.symm
        | cons next rest =>
            refine .writing (done ++ msg) next rest 0 none rfl hpending ?_
              (Nat.zero_le _) ?_ ?_ ?_
            · rw [List.drop_zero]
              exact congrArg (fun b => [Write.mk b none])
                (MsgNode.unsent_whole next)
            · rw [Option.getD_none, Nat.add_zero, List.take_zero, List.append_nil]
              exact hstream
            · rw [List.append_assoc]
              exact hcalls
            · intro m hm
              exact hshort m (List.mem_cons_of_mem msg hm)

theorem step {t : Session} {texts : Set Bytes}
    (htexts : ∀ buf ∈ texts, buf.length < 2 ^ 31) (h : Sending s)
    (hstep : Step .withQueue texts s t) : Sending t := by
  cases hstep with
  | write hbuf =>
      rw [Path.write_eq]
      exact h.enqueue (htexts _ hbuf)
  | accept hsplit hn => exact h.accept hsplit hn
  | callBack hsplit => exact h.callBack hsplit

end Sending

theorem delivers_of_short {texts : Set Bytes}
    (htexts : ∀ buf ∈ texts, buf.length < 2 ^ 31) {s : Session}
    (h : Reachable .withQueue texts s) : Delivers s := by
  have hstart : Sending .start := .idle rfl rfl rfl rfl
  have hsending : Sending s := by
    apply invariant_of_run h hstart
    intro s t hs hstep
    exact hs.step htexts hstep
  exact hsending.delivers

/-- The callback of the first write, which is given the whole string. -/
theorem reachable_callBack {path : Path} {texts : Set Bytes} {buf : Bytes}
    {node : MsgNode} {n : ℕ}
    (hcall : Step path texts .start (Session.start.emplace buf (some node)))
    (hn : n ≤ buf.length) :
    Reachable path texts
      (path.callBack ⟨[node], true, [], buf.take n, [buf], [n]⟩ n) := by
  rw [Session.emplace_of_not_pending rfl] at hcall
  let called : Session := ⟨[node], true, [⟨buf, none⟩], [], [buf], []⟩
  let accepted : Session :=
    ⟨[node], true, [⟨buf, some n⟩], buf.take n, [buf], []⟩
  have haccept : Step path texts called accepted :=
    .accept_single (s := called) rfl hn
  exact ((ReflTransGen.single hcall).tail haccept).tail
    (.callBack_single (s := accepted) rfl)

theorem step_emplace {path : Path} {texts : Set Bytes} {buf : Bytes}
    (hbuf : buf ∈ texts) (s : Session) :
    Step path texts s
      (s.emplace buf (MsgNode.make buf (toInt32 buf.length))) := by
  rw [← Session.enqueue, ← Path.write_eq path]
  exact .write hbuf

/-- The front is popped when as many bytes have been accepted as the node holds. -/
theorem reachable_popped {texts : Set Bytes} {buf part : Bytes}
    (hpart : part <+: buf) (hshort : part.length < 2 ^ 31)
    (hcall : Step .withQueue texts .start
      (Session.start.emplace buf (some (.whole part)))) :
    Reachable .withQueue texts ⟨[], false, [], part, [buf], [part.length]⟩ := by
  have hreach := reachable_callBack hcall hpart.length_le
  have htake : buf.take part.length = part :=
    (List.prefix_iff_eq_take.mp hpart).symm
  have hnone : ¬ 0 + part.length < part.length := by omega
  rw [Path.callBack, Session.writeCallBackWithQueue_eq (c := 0) rfl hshort
    (Nat.zero_add _).le rfl, if_neg hnone, htake] at hreach
  exact hreach

/-- Whatever the length of a string, it is not queued or has been popped after
less than `2 ^ 31` bytes. -/
theorem exists_popped_of_mem {texts : Set Bytes} {buf : Bytes}
    (hbuf : buf ∈ texts) :
    ∃ part sizes, part.length < 2 ^ 31 ∧
      Reachable .withQueue texts ⟨[], false, [], part, [buf], sizes⟩ := by
  have hcall : Step .withQueue texts .start _ := step_emplace hbuf .start
  by_cases hqueues : Queues buf
  · rw [MsgNode.make_of_queues hqueues] at hcall
    have hshort := length_copied_lt buf
    exact ⟨copied buf, _, hshort,
      reachable_popped (copied_isPrefix buf) hshort hcall⟩
  · rw [MsgNode.make_of_not_queues hqueues] at hcall
    exact ⟨[], [], Nat.two_pow_pos 31, .single hcall⟩

theorem not_delivers_of_long {texts : Set Bytes} {buf : Bytes}
    (hbuf : buf ∈ texts) (hlong : 2 ^ 31 ≤ buf.length) :
    ∃ s, Reachable .withQueue texts s ∧ ¬ Delivers s := by
  obtain ⟨part, sizes, hshort, hreach⟩ := exists_popped_of_mem hbuf
  refine ⟨_, hreach, ?_⟩
  intro hdelivers
  have hstream : part = [buf].flatten := hdelivers.complete rfl
  rw [hstream, List.flatten_singleton] at hshort
  exact not_le.mpr hshort hlong

/-- Every run with strings from `texts` delivers the stream if and only if an
`int` can hold the length of each of them. -/
theorem delivers_iff (texts : Set Bytes) :
    (∀ s, Reachable .withQueue texts s → Delivers s) ↔
      ∀ buf ∈ texts, buf.length < 2 ^ 31 := by
  constructor
  · intro hdelivers buf hbuf
    by_contra hlong
    obtain ⟨s, hs, hnot⟩ := not_delivers_of_long hbuf (not_lt.mp hlong)
    exact hnot (hdelivers s hs)
  · intro htexts s hs
    exact delivers_of_short htexts hs

/-- A string of `2 ^ 32 + 1` letters, of which the length is converted to `1`, is
popped before all of it has been accepted. -/
theorem long_string_not_delivered :
    ¬ ∀ s, Reachable .withQueue {List.replicate (2 ^ 32 + 1) 97} s →
      Delivers s := by
  intro hdelivers
  have hlong : 2 ^ 31 ≤ (List.replicate (2 ^ 32 + 1) (97 : UInt8)).length := by
    rw [List.length_replicate]
    omega
  obtain ⟨s, hs, hnot⟩ := not_delivers_of_long (Set.mem_singleton _) hlong
  exact hnot (hdelivers s hs)

end BackendLab.PartialWrite

import BackendLab.PartialWrite.Queued
import Mathlib.Data.List.Flatten

/-!
# The write-all path

`WriteAllCallBack` pops the front of the queue whatever number of bytes has been
transferred: each string is given to one write, and what that write has not had
accepted is lost.
-/

namespace BackendLab.PartialWrite

open Support Relation

/-! ## What is lost -/

/-- The bytes that the socket has accepted of strings, each with the number of
its bytes. -/
def pieces (sent : List (Bytes × ℕ)) : Bytes :=
  sent.flatMap fun p => p.1.take p.2

theorem pieces_append (sent : List (Bytes × ℕ)) (p : Bytes × ℕ) :
    pieces (sent ++ [p]) = pieces sent ++ p.1.take p.2 := by
  simp [pieces]

theorem pieces_sublist (sent : List (Bytes × ℕ)) :
    (pieces sent).Sublist (sent.map Prod.fst).flatten := by
  rw [← List.flatMap_def]
  exact List.Sublist.flatMap_right sent fun p _ => List.take_sublist p.2 p.1

/-- Nothing is lost only if every string has been accepted as a whole. -/
theorem eq_length_of_length_pieces {sent : List (Bytes × ℕ)}
    (hle : ∀ p ∈ sent, p.2 ≤ p.1.length)
    (h : (pieces sent).length = (sent.map Prod.fst).flatten.length) :
    ∀ p ∈ sent, p.2 = p.1.length := by
  induction sent with
  | nil => simp
  | cons p sent ih =>
      obtain ⟨hfirst, hrest⟩ := List.forall_mem_cons.mp hle
      have hsub := (pieces_sublist sent).length_le
      simp only [pieces, List.flatMap_cons, List.map_cons, List.flatten_cons,
        List.length_append, List.length_take] at h hsub
      rw [List.forall_mem_cons]
      refine ⟨by omega, ih hrest ?_⟩
      simp only [pieces]
      omega

/-- A string that is not queued is not empty, so that it is missed. -/
theorem filter_queues_eq_self {calls : List Bytes}
    (h : (calls.filter (Queues ·)).flatten.length = calls.flatten.length) :
    calls.filter (Queues ·) = calls := by
  induction calls with
  | nil => rfl
  | cons buf calls ih =>
      have hsub := (List.filter_sublist (l := calls)
        (p := (Queues ·))).flatten.length_le
      by_cases hqueues : Queues buf
      · rw [List.filter_cons_of_pos (by simpa using hqueues), List.flatten_cons,
          List.flatten_cons, List.length_append, List.length_append] at h
        rw [List.filter_cons_of_pos (by simpa using hqueues), ih (by omega)]
      · have hlong : ¬ buf.length < 2 ^ 31 := mt queues_of_lt hqueues
        rw [List.filter_cons_of_neg (by simpa using hqueues), List.flatten_cons,
          List.length_append] at h
        omega

theorem pieces_eq_flatten_iff {sent : List (Bytes × ℕ)} {calls : List Bytes}
    (hle : ∀ p ∈ sent, p.2 ≤ p.1.length)
    (hcalls : sent.map Prod.fst = calls.filter (Queues ·)) :
    pieces sent = calls.flatten ↔
      sent.map Prod.snd = calls.map List.length := by
  constructor
  -- The pieces are a part of the queued strings and these of all strings, so that
  -- equal lengths leave no room for a loss.
  · intro hstream
    have hpieces := (pieces_sublist sent).length_le
    have hfilter := (List.filter_sublist (l := calls)
      (p := (Queues ·))).flatten.length_le
    rw [hcalls, hstream] at hpieces
    have hall := filter_queues_eq_self (hfilter.antisymm hpieces)
    rw [hall] at hcalls
    have hwhole : ∀ p ∈ sent, p.2 = p.1.length :=
      eq_length_of_length_pieces hle (by rw [hcalls, hstream])
    rw [← hcalls, List.map_map]
    exact List.map_congr_left hwhole
  · intro hreported
    have hlength : (calls.filter (Queues ·)).length = calls.length := by
      rw [← hcalls, List.length_map, ← List.length_map (f := Prod.snd), hreported,
        List.length_map]
    have hall : calls.filter (Queues ·) = calls :=
      List.filter_sublist.eq_of_length hlength
    rw [hall] at hcalls
    rw [← hcalls, List.map_map, List.map_inj_left] at hreported
    rw [← hcalls, ← List.flatMap_def, pieces]
    apply List.flatMap_congr
    intro p hp
    exact List.take_of_length_le (hreported p hp).ge

/-! ## One write for each string -/

/-- The strings in `sent` have been popped, each after a write that has had the
given number of its bytes accepted.  Nothing else has been queued, or the string
`buf` is being written and those in `waiting` are queued behind it. -/
inductive SendingAll : Session → Prop
  | idle {s : Session} (sent : List (Bytes × ℕ)) (hqueue : s.sendQueue = [])
      (hpending : s.sendPending = false) (hout : s.outstanding = [])
      (hstream : s.stream = pieces sent)
      (hreported : s.reported = sent.map Prod.snd)
      (hle : ∀ p ∈ sent, p.2 ≤ p.1.length)
      (hcalls : sent.map Prod.fst = s.calls.filter (Queues ·)) : SendingAll s
  | writing {s : Session} (sent : List (Bytes × ℕ)) (buf buffer : Bytes)
      (waiting : List Bytes) (transferred : Option ℕ)
      (hqueue : s.sendQueue =
        (buf :: waiting).map fun buf => .whole (copied buf))
      (hpending : s.sendPending = true)
      (hout : s.outstanding = [⟨buffer, transferred⟩])
      (hbuffer : buffer <+: buf) (hmost : transferred.getD 0 ≤ buffer.length)
      (hstream : s.stream = pieces sent ++ buffer.take (transferred.getD 0))
      (hreported : s.reported = sent.map Prod.snd)
      (hle : ∀ p ∈ sent, p.2 ≤ p.1.length)
      (hcalls : sent.map Prod.fst ++ buf :: waiting =
        s.calls.filter (Queues ·)) : SendingAll s

namespace SendingAll

variable {s : Session}

theorem enqueue_of_not_queues (h : SendingAll s) {buf : Bytes}
    (hbuf : ¬ Queues buf) : SendingAll (s.enqueue buf) := by
  have hfilter : (s.calls ++ [buf]).filter (Queues ·) =
      s.calls.filter (Queues ·) := by
    simp [hbuf]
  rw [Session.enqueue, MsgNode.make_of_not_queues hbuf, Session.emplace]
  cases h with
  | idle sent hqueue hpending hout hstream hreported hle hcalls =>
      rw [← hfilter] at hcalls
      exact .idle sent hqueue hpending hout hstream hreported hle hcalls
  | writing sent first buffer waiting transferred hqueue hpending hout hbuffer
      hmost hstream hreported hle hcalls =>
      rw [← hfilter] at hcalls
      exact .writing sent first buffer waiting transferred hqueue hpending hout
        hbuffer hmost hstream hreported hle hcalls

theorem enqueue_of_queues (h : SendingAll s) {buf : Bytes}
    (hbuf : Queues buf) : SendingAll (s.enqueue buf) := by
  have hfilter : (s.calls ++ [buf]).filter (Queues ·) =
      s.calls.filter (Queues ·) ++ [buf] := by
    simp [hbuf]
  rw [Session.enqueue, MsgNode.make_of_queues hbuf]
  cases h with
  | idle sent hqueue hpending hout hstream hreported hle hcalls =>
      rw [Session.emplace_of_not_pending hpending, hqueue, hout]
      refine .writing sent buf buf [] none rfl rfl rfl List.prefix_rfl
        (Nat.zero_le _) ?_ hreported hle ?_
      · simp [hstream]
      · rw [hfilter, hcalls]
  | writing sent first buffer waiting transferred hqueue hpending hout hbuffer
      hmost hstream hreported hle hcalls =>
      rw [Session.emplace_of_pending hpending, hqueue]
      refine .writing sent first buffer (waiting ++ [buf]) transferred ?_ hpending
        hout hbuffer hmost hstream hreported hle ?_
      · simp
      · rw [hfilter, ← hcalls, List.append_assoc, List.cons_append]

variable {before after : List Write} {buffer : Bytes} {n : ℕ}

theorem accept (h : SendingAll s)
    (hsplit : s.outstanding = before ++ ⟨buffer, none⟩ :: after)
    (hn : n ≤ buffer.length) :
    SendingAll
      { s with
        outstanding := before ++ ⟨buffer, some n⟩ :: after
        stream := s.stream ++ buffer.take n } := by
  cases h with
  | idle sent hqueue hpending hout => simp [hout] at hsplit
  | writing sent buf given waiting transferred hqueue hpending hout hbuffer hmost
      hstream hreported hle hcalls =>
      obtain ⟨rfl, rfl, rfl, rfl⟩ := eq_of_outstanding hout hsplit
      rw [Option.getD_none, List.take_zero, List.append_nil] at hstream
      refine .writing sent buf buffer waiting (some n) hqueue hpending rfl hbuffer
        hn ?_ hreported hle hcalls
      rw [hstream, Option.getD_some]

/-- What has been accepted of the buffer has been accepted of the string. -/
theorem callBack (h : SendingAll s)
    (hsplit : s.outstanding = before ++ ⟨buffer, some n⟩ :: after) :
    SendingAll (Session.writeAllCallBack
      { s with
        outstanding := before ++ after
        reported := s.reported ++ [n] } n) := by
  cases h with
  | idle sent hqueue hpending hout => simp [hout] at hsplit
  | writing sent buf given waiting transferred hqueue hpending hout hbuffer hmost
      hstream hreported hle hcalls =>
      obtain ⟨rfl, rfl, rfl, rfl⟩ := eq_of_outstanding hout hsplit
      rw [Option.getD_some] at hmost hstream
      have htake : buffer.take n = buf.take n := by
        obtain ⟨rest, rfl⟩ := hbuffer
        exact (List.take_append_of_le_length hmost).symm
      have hstream' : s.stream = pieces (sent ++ [(buf, n)]) := by
        rw [hstream, htake, pieces_append]
      have hreported' : s.reported ++ [n] =
          (sent ++ [(buf, n)]).map Prod.snd := by
        rw [hreported, List.map_append, List.map_singleton]
      have hle' : ∀ p ∈ sent ++ [(buf, n)], p.2 ≤ p.1.length := by
        rw [List.forall_mem_append, List.forall_mem_singleton]
        exact ⟨hle, hmost.trans hbuffer.length_le⟩
      rw [List.append_cons, ← List.map_singleton (f := Prod.fst) (a := (buf, n)),
        ← List.map_append] at hcalls
      simp only [Session.writeAllCallBack, Session.pop, hqueue, List.map_cons,
        List.tail_cons]
      cases waiting with
      | nil =>
          rw [List.append_nil] at hcalls
          exact .idle _ rfl rfl rfl hstream' hreported' hle' hcalls
      | cons next waiting =>
          refine .writing _ next (copied next) waiting none rfl hpending ?_
            (copied_isPrefix next) (Nat.zero_le _) ?_ hreported' hle' hcalls
          · exact congrArg (fun b => [Write.mk b none])
              (MsgNode.unsent_whole (copied next))
          · rw [Option.getD_none, List.take_zero]
            exact hstream'.trans (List.append_nil _).symm

theorem step {t : Session} {texts : Set Bytes} (h : SendingAll s)
    (hstep : Step .writeAll texts s t) : SendingAll t := by
  cases hstep with
  | @write buf hbuf =>
      rw [Path.write_eq]
      by_cases hqueues : Queues buf
      · exact h.enqueue_of_queues hqueues
      · exact h.enqueue_of_not_queues hqueues
  | accept hsplit hn => exact h.accept hsplit hn
  | callBack hsplit => exact h.callBack hsplit

theorem of_reachable {texts : Set Bytes} (h : Reachable .writeAll texts s) :
    SendingAll s := by
  have hstart : SendingAll .start :=
    .idle [] rfl rfl rfl rfl rfl (List.forall_mem_nil _) rfl
  apply invariant_of_run h hstart
  intro s t hs hstep
  exact hs.step hstep

end SendingAll

/-! ## Agreement of the paths -/

theorem stream_eq_flatten_iff {texts : Set Bytes} {s : Session}
    (h : Reachable .writeAll texts s) (hqueue : s.sendQueue = []) :
    s.stream = s.calls.flatten ↔ s.reported = s.calls.map List.length := by
  cases SendingAll.of_reachable h with
  | idle sent _ _ _ hstream hreported hle hcalls =>
      rw [hstream, hreported]
      exact pieces_eq_flatten_iff hle hcalls
  | writing sent buf buffer waiting transferred hfront =>
      rw [hqueue] at hfront
      cases hfront

/-- When its queue is empty, the write-all path has put the strings of its calls
on the socket if and only if each completion has reported the length of its
string.  The same is the condition for it to have put the same bytes on the socket
as the queued path with the same strings, if that has delivered them. -/
theorem writeAll_agrees_iff {texts : Set Bytes} {s : Session}
    (h : Reachable .writeAll texts s) (hqueue : s.sendQueue = []) :
    (s.stream = s.calls.flatten ↔ s.reported = s.calls.map List.length) ∧
      ∀ q, Reachable .withQueue {buf | buf.length < 2 ^ 31} q →
        q.sendQueue = [] → q.calls = s.calls →
          (s.stream = q.stream ↔ s.reported = s.calls.map List.length) := by
  have hiff := stream_eq_flatten_iff h hqueue
  refine ⟨hiff, ?_⟩
  intro q hq hempty hcalls
  have hdelivers : Delivers q := delivers_of_short (fun _ hbuf => hbuf) hq
  rw [hdelivers.complete hempty, hcalls]
  exact hiff

section One

variable {texts : Set Bytes} {buf : Bytes} {n : ℕ}

/-- The write-all path with one string, of which `n` bytes are accepted. -/
theorem reachable_writeAll_one (hbuf : buf ∈ texts)
    (hshort : buf.length < 2 ^ 31) (hn : n ≤ buf.length) :
    Reachable .writeAll texts ⟨[], false, [], buf.take n, [buf], [n]⟩ := by
  have hcall : Step .writeAll texts .start _ := step_emplace hbuf .start
  rw [MsgNode.make_eq_whole hshort] at hcall
  exact reachable_callBack hcall hn

/-- The queued path with one string, which is accepted at once. -/
theorem reachable_withQueue_one (hbuf : buf ∈ texts)
    (hshort : buf.length < 2 ^ 31) :
    Reachable .withQueue texts ⟨[], false, [], buf, [buf], [buf.length]⟩ := by
  have hcall : Step .withQueue texts .start _ := step_emplace hbuf .start
  rw [MsgNode.make_eq_whole hshort] at hcall
  exact reachable_popped List.prefix_rfl hshort hcall

end One

/-- The string `ab` is written on either path, and both of its bytes are
accepted. -/
theorem writeAll_agrees_ab :
    ∃ s q, Reachable .writeAll {[97, 98]} s ∧
      Reachable .withQueue {buf | buf.length < 2 ^ 31} q ∧
      s.sendQueue = [] ∧ q.sendQueue = [] ∧ q.calls = s.calls ∧
      s.calls = [[97, 98]] ∧ s.stream = s.calls.flatten ∧
      s.stream = q.stream := by
  let s : Session := ⟨[], false, [], [97, 98], [[97, 98]], [2]⟩
  have hshort : ([97, 98] : Bytes).length < 2 ^ 31 := by decide
  have hs : Reachable .writeAll {[97, 98]} s :=
    reachable_writeAll_one (n := 2) (Set.mem_singleton _) hshort le_rfl
  have hq : Reachable .withQueue {buf | buf.length < 2 ^ 31} s :=
    reachable_withQueue_one hshort hshort
  have hagrees := writeAll_agrees_iff hs rfl
  exact ⟨s, s, hs, hq, rfl, rfl, rfl, rfl, hagrees.1.mpr rfl,
    (hagrees.2 s hq rfl rfl).mpr rfl⟩

/-- The write-all path pops the string `ab` when one byte of it has been
accepted. -/
theorem writeAll_loses_b :
    ¬ ∀ s q, Reachable .writeAll Set.univ s → Reachable .withQueue Set.univ q →
      s.sendQueue = [] → q.sendQueue = [] → s.calls = q.calls →
        s.stream = q.stream ∧ s.stream = s.calls.flatten := by
  intro hagree
  have hshort : ([97, 98] : Bytes).length < 2 ^ 31 := by decide
  have hs := reachable_writeAll_one (n := 1) (Set.mem_univ [97, 98]) hshort
    (by decide)
  have hq := reachable_withQueue_one (Set.mem_univ [97, 98]) hshort
  have hstream := (hagree _ _ hs hq rfl rfl rfl).1
  exact absurd hstream (by decide)

end BackendLab.PartialWrite

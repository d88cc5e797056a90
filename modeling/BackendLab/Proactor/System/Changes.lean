import BackendLab.Proactor.System.Ownership

/-!
# What a step changes

Most steps of the program leave the objects, the open descriptors and the count
of the users alone.  `Change` says once which steps do not, and what they do.
-/

namespace BackendLab.Proactor

open Support

variable {ω : Type*}

/-- The step runs `write()` or `process()`. -/
def Label.answers : Label ω → Bool
  | .write _ _ | .process _ _ => true
  | _ => false

/-- How a step changes `users`, the open descriptors and `m_user_count`. -/
inductive Change (s : Server ω) : Label ω → Server ω → Prop
  | none {l : Label ω} {t : Server ω} (hl : l.answers = false)
      (users : t.users = s.users) (isOpen : t.isOpen = s.isOpen)
      (count : t.userCount = s.userCount) : Change s l t
  | accept {fd : ℕ} {t : Server ω} (room : s.userCount < maxFd)
      (fresh : s.isOpen fd = false)
      (users : t.users = Function.update s.users fd
        { (s.users fd).init with sockfd := fd })
      (isOpen : t.isOpen = Function.update s.isOpen fd true)
      (count : t.userCount = s.userCount + 1) : Change s (.accept fd) t
  | acceptFailed {t : Server ω} (room : s.userCount < maxFd)
      (users : t.users = s.users) (isOpen : t.isOpen = s.isOpen)
      (count : t.userCount = s.userCount + 1) : Change s .acceptFailed t
  | read {fd : ℕ} {outcomes : List RecvOutcome} {p : Parser} {t : Server ω}
      (users : t.users = Function.update s.users fd ((s.users fd).withParser p))
      (isOpen : t.isOpen = s.isOpen) (count : t.userCount = s.userCount) :
      Change s (.read fd outcomes) t
  | write {fd : ℕ} {outcomes : List HttpConn.WritevOutcome}
      {r : HttpConn.WriteResult} {t : Server ω}
      (hwrite : (s.users fd).write outcomes = some r)
      (users : t.users = Function.update s.users fd r.conn)
      (isOpen : t.isOpen = s.isOpen) (count : t.userCount = s.userCount) :
      Change s (.write fd outcomes) t
  | closeconn {fd : ℕ} {t : Server ω} (hopen : s.isOpen fd = true)
      (users : t.users = Function.update s.users fd
        { s.users fd with sockfd := -1 })
      (isOpen : t.isOpen = Function.update s.isOpen fd false)
      (count : t.userCount = s.userCount - 1) : Change s (.closeconn fd) t
  | process {w : ω} {fs : FileSystem} {fd : ℕ} {t : Server ω}
      (hw : s.workers w = .holding fd)
      (users : t.users = Function.update s.users fd
        ((s.users fd).process fs).2)
      (isOpen : t.isOpen = s.isOpen) (count : t.userCount = s.userCount) :
      Change s (.process w fs) t

namespace Server

variable {s t : Server ω}

theorem frame_modifyfd (s : Server ω) (fd : ℤ) (ev : Interest) :
    (s.modifyfd fd ev).users = s.users ∧
      (s.modifyfd fd ev).isOpen = s.isOpen ∧
      (s.modifyfd fd ev).userCount = s.userCount := by
  rw [modifyfd]
  split
  · exact ⟨rfl, rfl, rfl⟩
  · exact ⟨rfl, rfl, rfl⟩

theorem frame_write (s : Server ω) (fd : ℕ) (r : HttpConn.WriteResult) :
    (s.write fd r).users = Function.update s.users fd r.conn ∧
      (s.write fd r).isOpen = s.isOpen ∧
      (s.write fd r).userCount = s.userCount := by
  rw [Server.write]
  cases r.exit.rearms with
  | none => exact ⟨rfl, rfl, rfl⟩
  | some ev => exact frame_modifyfd _ _ ev

theorem change_accept (fd : ℕ) (hfresh : s.isOpen fd = false) :
    Change s (.accept fd) (s.accept fd) := by
  rw [Server.accept]
  split
  · exact .none rfl rfl rfl rfl
  · next hroom => exact .accept (Int.not_le.mp hroom) hfresh rfl rfl rfl

theorem change_acceptFailed : Change s .acceptFailed s.acceptFailed := by
  rw [Server.acceptFailed]
  split
  · exact .none rfl rfl rfl rfl
  · next hroom => exact .acceptFailed (Int.not_le.mp hroom) rfl rfl rfl

variable [DecidableEq ω]

theorem Inv.change (h : s.Inv) {l : Label ω} (hmove : Move s l t) :
    Change s l t := by
  cases hmove with
  | accept _ hfresh _ => exact change_accept _ hfresh
  | acceptFailed _ => exact change_acceptFailed
  | read _ _ => exact .read rfl rfl rfl
  | append _ =>
      rw [Server.append]
      split
      · exact .none rfl rfl rfl rfl
      · exact .none rfl rfl rfl rfl
  | write _ hwrite =>
      obtain ⟨husers, hopen, hcount⟩ := frame_write s _ _
      exact .write hwrite husers hopen hcount
  | @closeconn fd hmain =>
      have hslot : s.main.slot = some fd := by rw [hmain, MainThread.slot]
      have hopen := h.isOpen_of_slot hslot
      rw [h.closeconn_eq hmain]
      exact .closeconn hopen rfl rfl rfl
  | take _ =>
      rw [Server.take]
      split
      · exact .none rfl rfl rfl rfl
      · exact .none rfl rfl rfl rfl
  | @process w fd fs hw =>
      rw [h.process_eq fs hw]
      exact .process hw rfl rfl rfl
  | @finish w fd exit hw =>
      obtain ⟨husers, hopen, hcount⟩ := frame_modifyfd
        { s with workers := Function.update s.workers w .idle }
        (s.users fd).sockfd exit.interest
      exact .none rfl husers hopen hcount
  | _ => exact .none rfl rfl rfl rfl

end Server

end BackendLab.Proactor

import Ps4Sdk.FallibleCalls
import Ps4Sdk.KernelBase

/-!
# Accepting a connection, `kernel/socket.c`

While `ps4KernelSocketAccept` waits, others change the listening socket: each return of
`msleep` comes with the socket as it is then. The function holds `accept_mtx` whenever it
is awake between its first look at the queue and the end of the dequeuing.
-/

namespace Ps4Sdk.SocketAccept

open FallibleCalls

def eInval : Code := 22

def eWouldBlock : Code := 35

def eConnAborted : Code := 53

def soAcceptConn : BitVec 32 := 0x2

/-- A connection: its address, `SS_NBIO`, `SQ_COMP`, and whether it names a listening socket in
`so_head`. -/
structure Connection where
  address : Address
  nbio : Bool
  comp : Bool
  headed : Bool
  deriving DecidableEq

/-- What the function reads and writes of the listening socket. -/
structure Head where
  so_options : BitVec 32
  nbio : Bool
  cantRcvMore : Bool
  so_error : BitVec 16
  so_comp : List Connection
  so_qlen : BitVec 16
  deriving DecidableEq

/-- The listening socket as it is and as others left it last, what was stored in `*client`, and
whether the function holds `accept_mtx`. -/
structure State where
  head : Head
  seen : Head
  client : Option Connection
  locked : Bool
  deriving DecidableEq

/-- What the calls around the function give: the look-up of `accept_mtx`, the socket when the lock
is taken, the returns of `msleep`, `soaccept` with the address it stores in `sa`, and the look-up of
`M_SONAME`. -/
structure Surroundings where
  acceptMtx : Evaluations LookUp
  atLock : Head
  wakes : List (Code × Head)
  soaccept : Connection → Code × Address
  soname : Evaluations LookUp

inductive Waited
  | asleep
  | left (r : Code) (s : State)
  | ready (s : State)
  deriving DecidableEq

/-- The ends of the call. A fault is the use of an address that is `NULL`. -/
inductive Outcome
  | asleep
  | fault
  | returns (r : Code) (s : State)
  deriving DecidableEq

def State.unlock (s : State) : State := { s with locked := false }

def State.found (s : State) (head : Head) : State :=
  { s with head := head, seen := head, locked := true }

def wait (wakes : List (Code × Head)) (s : State) : Waited :=
  if s.head.so_comp = [] ∧ s.head.so_error = 0 then
    if s.head.cantRcvMore then .left eConnAborted s.unlock
    else
      match wakes with
      | [] => .asleep
      | (r, head) :: wakes => if r ≠
          0 then .left r (s.found head).unlock else wait wakes (s.found head)
  else .ready s

def lockAndWait (e : Surroundings) (s : State) : Waited :=
  let s := s.found e.atLock
  if s.head.nbio ∧ s.head.so_comp = [] then .left eWouldBlock s.unlock else wait e.wakes s

/-- Takes the first connection, whose flags follow the listening socket. -/
def State.dequeue (s : State) (rest : List Connection) : State :=
  { s with head := { s.head with so_comp := rest, so_qlen := s.head.so_qlen - 1 } }

def Connection.accepted (so : Connection) (head : Head) : Connection :=
  { so with nbio := so.nbio || head.nbio, comp := false, headed := false }

def acceptFirst (e : Surroundings) (s : State) : Outcome :=
  match s.head.so_comp with
  | [] => .fault
  | so :: rest =>
    let t := (s.dequeue rest).unlock
    let so := so.accepted s.head
    if (e.soaccept so).2 ≠ 0#64 then
      if e.soname.first.code ≠ ps4Ok then .returns e.soname.second.code t
      -- `free` reads the type that it is given
      else if e.soname.first.value = 0#64 then .fault
      else .returns (e.soaccept so).1 { t with client := some so }
    else .returns (e.soaccept so).1 { t with client := some so }

def ps4KernelSocketAccept (e : Surroundings) (head client : Address) (s : State) : Outcome :=
  if head = 0#64 then .returns ps4ErrorArgumentPrimaryMissing s
  else if client = 0#64 then .returns ps4ErrorArgumentMissing s
  else
    let s := { s with head.so_options := s.head.so_options ||| soAcceptConn }
    if s.head.so_options &&& soAcceptConn = 0 then .returns eInval s
    else if e.acceptMtx.first.code ≠ ps4Ok then .returns e.acceptMtx.second.code s
    else if e.acceptMtx.first.value = 0#64 then .fault
    else
      match lockAndWait e s with
      | .asleep => .asleep
      | .left r s => .returns r s
      | .ready s => acceptFirst e s

def enter (head : Head) : State := ⟨head, head, none, false⟩

structure Unchanged (s : State) : Prop where
  so_comp : s.head.so_comp = s.seen.so_comp
  so_qlen : s.head.so_qlen = s.seen.so_qlen
  client : s.client = none
  released : s.locked = false

structure Took (s : State) : Prop where
  first : ∃ so, s.seen.so_comp = so :: s.head.so_comp ∧
    s.client.map Connection.address = some so.address
  so_qlen : s.head.so_qlen = s.seen.so_qlen - 1
  released : s.locked = false

def Handled : Outcome → Prop
  | .asleep => True
  | .fault => False
  | .returns r s => r ≠ ps4Ok ∧ Unchanged s ∨ Took s

/-- What a wait has done at its end. -/
def Waited.Sound : Waited → Prop
  | .asleep => True
  | .left r s => r ≠ ps4Ok ∧ Unchanged s
  | .ready s => s.head = s.seen ∧ s.client = none

private theorem unchanged_unlock {s : State} (hhead : s.head = s.seen) (hclient : s.client = none) :
    Unchanged s.unlock :=
  ⟨congrArg Head.so_comp hhead, congrArg Head.so_qlen hhead, hclient, rfl⟩

/-- Whatever others do while the function sleeps, it leaves the queue alone. -/
theorem wait_sound (wakes : List (Code × Head)) (s : State) (hhead : s.head = s.seen)
    (hclient : s.client = none) :
    (wait wakes s).Sound := by
  induction wakes generalizing s with
  | nil =>
    rw [wait]
    split_ifs
    · exact ⟨by decide, unchanged_unlock hhead hclient⟩
    · trivial
    · exact ⟨hhead, hclient⟩
  | cons wake wakes ih =>
    obtain ⟨r, head⟩ := wake
    rw [wait]
    split_ifs with hempty hclosed hr
    · exact ⟨by decide, unchanged_unlock hhead hclient⟩
    · exact ⟨hr, unchanged_unlock rfl hclient⟩
    · exact ih (s.found head) rfl hclient
    · exact ⟨hhead, hclient⟩

theorem lockAndWait_sound (e : Surroundings) (head : Head) :
    (lockAndWait e (enter head)).Sound := by
  unfold lockAndWait
  dsimp only
  split_ifs
  · exact ⟨by decide, unchanged_unlock rfl rfl⟩
  · exact wait_sound _ _ rfl rfl

def Head.Idle (h : Head) : Prop := h.so_comp = [] ∧ h.so_error = 0

/-- The wait ends by its condition when the socket is like this: every look at it before was
followed by a sleep and a wake-up. -/
def EndsAt (looks : List (Code × Head)) (h : Head) : Prop :=
  ∃ before after, looks = before ++ (0, h) :: after ∧ ¬h.Idle ∧
    ∀ look ∈ before, look.1 = 0 ∧ look.2.Idle ∧ look.2.cantRcvMore = false

theorem endsAt_cons_idle {look : Head} (hidle : look.Idle) (hopen : look.cantRcvMore = false)
    {looks : List (Code × Head)} {h : Head} :
    EndsAt ((0, look) :: looks) h ↔ EndsAt looks h := by
  constructor
  · rintro ⟨_ | ⟨first, before⟩, after, heq, hready, hbefore⟩
    · obtain rfl : look = h := congrArg Prod.snd (List.cons.inj heq).1
      exact absurd hidle hready
    · exact ⟨before, after, (List.cons.inj heq).2, hready,
        fun l hl => hbefore l (List.mem_cons_of_mem _ hl)⟩
  · rintro ⟨before, after, rfl, hready, hbefore⟩
    refine ⟨(0, look) :: before, after, rfl, hready, fun l hl => ?_⟩
    rcases List.mem_cons.mp hl with rfl | hl
    · exact ⟨rfl, hidle, hopen⟩
    · exact hbefore l hl

theorem endsAt_cons_ready {look : Head} (hready : ¬look.Idle) {looks : List (Code × Head)}
    {h : Head} : EndsAt ((0, look) :: looks) h ↔ h = look := by
  constructor
  · rintro ⟨_ | ⟨first, before⟩, after, heq, _, hbefore⟩
    · exact (congrArg Prod.snd (List.cons.inj heq).1).symm
    · obtain ⟨rfl, _⟩ := List.cons.inj heq
      exact absurd (hbefore _ List.mem_cons_self).2.1 hready
  · rintro rfl
    exact ⟨[], looks, rfl, hready, fun _ h => absurd h List.not_mem_nil⟩

/-- Not at a socket that is closed, nor after a sleep that failed. -/
theorem not_endsAt_closed {look : Head} (hidle : look.Idle) (hclosed : look.cantRcvMore = true)
    {looks : List (Code × Head)} {h : Head} : ¬EndsAt ((0, look) :: looks) h := by
  rintro ⟨_ | ⟨first, before⟩, after, heq, hready, hbefore⟩
  · obtain rfl : look = h := congrArg Prod.snd (List.cons.inj heq).1
    exact hready hidle
  · obtain ⟨rfl, _⟩ := List.cons.inj heq
    have hopen := (hbefore _ List.mem_cons_self).2.2
    exact Bool.false_ne_true (hopen.symm.trans hclosed)

private theorem not_endsAt_failed {r : Code} (hr : r ≠ 0) {look : Head} {looks : List (Code × Head)}
    {h : Head} : ¬EndsAt ((r, look) :: looks) h := by
  rintro ⟨_ | ⟨first, before⟩, after, heq, _, hbefore⟩
  · exact hr (congrArg Prod.fst (List.cons.inj heq).1)
  · obtain ⟨rfl, _⟩ := List.cons.inj heq
    exact hr (hbefore _ List.mem_cons_self).1

/-- What holds of the socket at which the wait ends holds of the state that it ends in. -/
theorem wait_ends (P : Head → Prop) (wakes : List (Code × Head)) (s : State) :
    (∀ h, EndsAt ((0, s.head) :: wakes) h → P h) ↔ ∀ t, wait wakes s = .ready t → P t.head := by
  induction wakes generalizing s with
  | nil =>
    rw [wait]
    split_ifs with hidle hclosed
    · exact iff_of_true (fun h hends => absurd hends (not_endsAt_closed hidle hclosed))
        fun _ => False.elim
    · refine iff_of_true (fun h hends => ?_) fun _ => False.elim
      obtain ⟨before, after, heq, _⟩ :=
        (endsAt_cons_idle hidle (eq_false_of_ne_true hclosed)).mp hends
      exact absurd heq.symm (by simp)
    · simp only [endsAt_cons_ready hidle, Waited.ready.injEq, forall_eq, forall_eq']
  | cons wake wakes ih =>
    obtain ⟨r, head⟩ := wake
    rw [wait]
    split_ifs with hidle hclosed hr
    · exact iff_of_true (fun h hends => absurd hends (not_endsAt_closed hidle hclosed))
        fun _ => False.elim
    · refine iff_of_true (fun h hends => ?_) fun _ => False.elim
      exact absurd ((endsAt_cons_idle hidle (eq_false_of_ne_true hclosed)).mp hends)
        (not_endsAt_failed hr)
    · obtain rfl := of_not_not hr
      simp only [endsAt_cons_idle hidle (eq_false_of_ne_true hclosed)]
      exact ih (s.found head)
    · simp only [endsAt_cons_ready hidle, Waited.ready.injEq, forall_eq, forall_eq']

/-- The socket does not refuse to block, and the wait ends at this one. -/
def Surroundings.EndsAt (e : Surroundings) (h : Head) : Prop :=
  ¬(e.atLock.nbio ∧ e.atLock.so_comp = []) ∧ SocketAccept.EndsAt ((0, e.atLock) :: e.wakes) h

theorem lockAndWait_ends (P : Head → Prop) (e : Surroundings) (s : State) :
    (∀ h, e.EndsAt h → P h) ↔ ∀ t, lockAndWait e s = .ready t → P t.head := by
  unfold lockAndWait Surroundings.EndsAt
  dsimp only [State.found]
  split_ifs with hblock
  · exact iff_of_true (fun h hends => absurd hblock hends.1) fun _ => False.elim
  · rw [← wait_ends]
    simp only [hblock, not_false_eq_true, true_and]

private theorem option_set (x : BitVec 32) :
    (x ||| soAcceptConn) &&& soAcceptConn = soAcceptConn := by
  ext i hi
  simp only [BitVec.getElem_and, BitVec.getElem_or]
  cases soAcceptConn[i] <;> simp

def Accepts (e : Surroundings) (h : Head) : Prop :=
  ∃ so rest, h.so_comp = so :: rest ∧
    ((e.soaccept (so.accepted h)).2 ≠ 0#64 → e.soname.first.Found)

theorem acceptFirst_handled_iff (e : Surroundings) {s : State} (hhead : s.head = s.seen)
    (hclient : s.client = none) : Handled (acceptFirst e s) ↔ Accepts e s.head := by
  unfold acceptFirst Accepts
  cases hcomp : s.head.so_comp with
  | nil => exact iff_of_false id (by simp)
  | cons so rest =>
    have hseen : s.seen.so_comp = so :: rest := by rw [← hhead, hcomp]
    have hstored : ∀ r, Handled (.returns r
        { (s.dequeue rest).unlock with client := some (so.accepted s.head) }) := fun r =>
      .inr ⟨⟨so, hseen, rfl⟩, congrArg (fun head => head.so_qlen - 1) hhead, rfl⟩
    have hfirst : (∃ so' rest', so :: rest = so' :: rest' ∧
        ((e.soaccept (so'.accepted s.head)).2 ≠ 0#64 → e.soname.first.Found)) ↔
        ((e.soaccept (so.accepted s.head)).2 ≠ 0#64 → e.soname.first.Found) := by
      refine ⟨?_, fun h => ⟨so, rest, rfl, h⟩⟩
      rintro ⟨_, _, heq, h⟩
      obtain ⟨rfl, rfl⟩ := List.cons.inj heq
      exact h
    rw [hfirst]
    dsimp only
    split_ifs with hsa hcode hnull
    · refine iff_of_false ?_ fun h => hcode (h hsa).1
      rintro (⟨_, hsame⟩ | htook)
      · exact List.cons_ne_self so rest (hseen.symm.trans hsame.so_comp.symm)
      · obtain ⟨_, _, hclient'⟩ := htook.first
        change s.client.map Connection.address = _ at hclient'
        rw [hclient] at hclient'
        exact Option.some_ne_none _ hclient'.symm
    · exact iff_of_false id fun h => (h hsa).2 hnull
    · exact iff_of_true (hstored _) fun _ => ⟨of_not_not hcode, hnull⟩
    · exact iff_of_true (hstored _) fun h => absurd h hsa

/-- Every state of the listening socket is handled exactly if the look-up of `accept_mtx` fails
twice, or gives a mutex and the wait does not end at an empty queue, and `M_SONAME` is found if it
is looked up. -/
theorem accept_handled_iff (e : Surroundings) (head client : Address) (h : Head) :
    Handled (ps4KernelSocketAccept e head client (enter h)) ↔ head = 0#64 ∨ client = 0#64 ∨
      e.acceptMtx.first.code ≠ ps4Ok ∧ e.acceptMtx.second.code ≠ ps4Ok ∨
      e.acceptMtx.first.Found ∧ ∀ last, e.EndsAt last → ∃ so rest, last.so_comp = so :: rest ∧
        ((e.soaccept (so.accepted last)).2 ≠ 0#64 → e.soname.first.Found) := by
  have hoption : ¬((enter h).head.so_options ||| soAcceptConn) &&& soAcceptConn = 0 := by
    rw [option_set]
    decide
  unfold ps4KernelSocketAccept
  by_cases hhead : head = 0#64
  · rw [if_pos hhead]
    exact iff_of_true (.inl ⟨by decide, rfl, rfl, rfl, rfl⟩) (.inl hhead)
  by_cases hclient : client = 0#64
  · rw [if_neg hhead, if_pos hclient]
    exact iff_of_true (.inl ⟨by decide, rfl, rfl, rfl, rfl⟩) (.inr (.inl hclient))
  rw [if_neg hhead, if_neg hclient]
  dsimp only
  rw [if_neg hoption]
  simp only [hhead, hclient, false_or, LookUp.Found]
  by_cases hmtx : e.acceptMtx.first.code = ps4Ok
  swap
  · rw [if_pos hmtx]
    simp only [hmtx, ne_eq, not_false_eq_true, true_and, false_and, or_false]
    refine ⟨?_, fun hsecond => .inl ⟨hsecond, rfl, rfl, rfl, rfl⟩⟩
    rintro (⟨hsecond, _⟩ | htook)
    · exact hsecond
    · obtain ⟨so, hfirst, _⟩ := htook.first
      exact absurd hfirst.symm (List.cons_ne_self so _)
  rw [if_neg (not_not_intro hmtx)]
  by_cases hnull : e.acceptMtx.first.value = 0#64
  · rw [if_pos hnull]
    exact iff_of_false id (by simp [hmtx, hnull])
  have hwait := lockAndWait_sound e h
  rw [if_neg hnull]
  change Handled (match lockAndWait e (enter h) with
    | .asleep => .asleep
    | .left r s => .returns r s
    | .ready s => acceptFirst e s) ↔ _
  simp only [hmtx, hnull, ne_eq, not_true_eq_false, not_false_eq_true, false_and,
    false_or, true_and]
  change _ ↔ ∀ last, e.EndsAt last → Accepts e last
  rw [lockAndWait_ends (Accepts e) e (enter h)]
  cases hend : lockAndWait e (enter h) with
  | asleep => exact iff_of_true trivial fun s hs => Waited.noConfusion hs
  | left r s =>
    rw [hend] at hwait
    exact iff_of_true (.inl hwait) fun s hs => Waited.noConfusion hs
  | ready s =>
    rw [hend] at hwait
    simp [acceptFirst_handled_iff e hwait.1 hwait.2]

def quiet : Head := ⟨0x2, false, false, 0, [], 0⟩

/-- The wake-up with an error, and with a connection. -/
def surroundings (wake : Head) (soname : LookUp) : Surroundings :=
  ⟨⟨⟨ps4Ok, 0x4000⟩, ⟨ps4Ok, 0x4000⟩⟩, quiet, [(0, wake)], fun _ => (0, 0x5000),
    ⟨soname, ⟨ps4Ok, soname.value⟩⟩⟩

def arrived : Head := { quiet with so_comp := [⟨0x3000, false, true, true⟩], so_qlen := 1 }

/-- An error that ends the wait lets the function take a connection from the empty queue. A
connection is taken and not stored if `M_SONAME` is not found: the second look-up gives the code of
success, and the next call faults with the pointer that is cached. -/
theorem accept_takes_nothing :
    ps4KernelSocketAccept (surroundings { quiet with so_error := 54 } ⟨ps4Ok, 0x6000⟩) 0x1000 0x2000
        (enter quiet) = .fault ∧
      (∃ s, ps4KernelSocketAccept (surroundings arrived ⟨ps4ErrorKernelSymbolLookupNotFound, 0⟩)
          0x1000 0x2000 (enter quiet) = .returns ps4Ok s ∧ s.head.so_comp = [] ∧ s.client = none) ∧
      ps4KernelSocketAccept (surroundings arrived ⟨ps4Ok, 0⟩) 0x1000 0x2000
        (enter quiet) = .fault :=
  ⟨by decide, ⟨_, rfl, rfl, rfl⟩, by decide⟩

end Ps4Sdk.SocketAccept

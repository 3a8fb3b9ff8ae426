import Ps4Sdk.HexDumps
import Ps4Sdk.SocketLines
import Ps4Sdk.StepRuns
import Mathlib.Data.List.Forall2

/-!
# Printing on one end of a connection and scanning on the other, `kernel/socket.c`

A stream takes the bytes of the prints in the order of their calls to `sosend`. The scans take
them off one by one, and a scan that finds no byte waits. The prints go on between any two of
the bytes that a scan receives, so a line may be there in parts, or not yet, when a scan begins.
-/

namespace Ps4Sdk.SocketSessions

open FormattedStrings SocketLines StepRuns
open HexDumps (Printing ps4KernelSocketSend ps4KernelSocketPrintSizedWithArgumentList)

/-- A format with its arguments: what `vsscanf` returns for the memory at its string, which it reads
up to the terminator. -/
structure Format where
  vsscanf : (ℕ → Byte) → BitVec 32
  reads : ∀ c c' n, c n = 0#8 → (∀ i ≤ n, c i = c' i) → vsscanf c = vsscanf c'

/-- What the call returns, what it stores at `match`, the live blocks, and what it did on the
way. -/
structure Scanned where
  r : Code
  matched : Option (BitVec 32)
  live : List Address
  consumed : ℕ
  stores : List (ℕ × ℕ)

def ps4KernelSocketScanSizedWithArgumentList {data : Address} (m : LineAllocator data)
    (td sock : Address) (soreceive : ℕ → Received) (size : BitVec 64) (matchAddress : Address)
    (format : Option Format) (fuel : ℕ) :
    Option Scanned :=
  match format with
  | none => some ⟨ps4ErrorArgumentMissing, none, m.live, 0, []⟩
  | some f =>
    if matchAddress = 0#64 then some ⟨ps4ErrorArgumentMissing, none, m.live, 0, []⟩
    else
      (ps4KernelSocketReceiveString m td sock soreceive size fuel).bind fun o =>
        if o.r = ps4Ok then
          -- without the out parameter the call would read a variable that nothing initialised
          o.out.bind fun out => (ps4KernelMemoryFree o.live out.1.base).map fun live =>
            ⟨o.r, some (f.vsscanf out.1.cells), live, o.consumed, o.stores⟩
        else some ⟨o.r, none, o.live, o.consumed, o.stores⟩

/-- A call of the scan with all its arguments, and the allocator that it finds. -/
structure Call where
  td : Address
  sock : Address
  size : BitVec 64
  matchAddress : Address
  format : Format
  data : Address
  m : LineAllocator data
  td_ne : td ≠ 0#64
  sock_ne : sock ≠ 0#64
  match_ne : matchAddress ≠ 0#64
  place_ne : ∀ n, m.place n ≠ 0#64

def Call.outcome (c : Call) (got : List Byte) : Option Scanned :=
  ps4KernelSocketScanSizedWithArgumentList c.m c.td c.sock
    (closedStream got) c.size c.matchAddress (some c.format)
    got.length

structure Print where
  k : Printing
  td : Address
  sock : Address
  sz : BitVec 64
  format : Option Formatted

def Print.call (p : Print) : Option (Code × List Byte) :=
  ps4KernelSocketPrintSizedWithArgumentList p.k p.td p.sock p.sz p.format

def Print.text (p : Print) : List Byte := (p.format.map Formatted.text).getD []

/-- The print returns, which a print with a limit may not, and succeeds. -/
def Print.Succeeds (p : Print) : Prop := ∃ given, p.call = some (ps4Ok, given)

/-- What a print that returns puts into the stream: a beginning of what `sosend` is given, and all
of it if it succeeds. -/
def Print.Puts (p : Print) (bytes : List Byte) : Prop :=
  ∃ r given, p.call = some (r, given) ∧ bytes <+: given ∧ (r = ps4Ok → bytes = given)

/-- The bytes that were ever put into the stream, those that were not yet received, the scan that
waits with the bytes it has, and the scans that returned. -/
structure Session where
  sent : List Byte
  queue : List Byte
  scan : Option (Call × List Byte)
  answers : List (Call × Scanned)

def Session.start : Session := ⟨[], [], none, []⟩

def Session.got (s : Session) : List Byte := (s.scan.map Prod.snd).getD []

def Session.proceed (s : Session) (c : Call) (got : List Byte) : Session :=
  match c.outcome got with
  | some o => { s with scan := none, answers := s.answers ++ [(c, o)] }
  | none => { s with scan := some (c, got) }

inductive Action
  | print (p : Print) (bytes : List Byte)
  | scan (c : Call)
  | receive

def Step (s : Session) : Action → Session → Prop
  | .print p bytes, t => p.Puts bytes ∧
      t = { s with sent := s.sent ++ bytes, queue := s.queue ++ bytes }
  | .scan c, t => s.scan = none ∧ t = s.proceed c []
  | .receive, t => ∃ c got b rest, s.scan = some (c, got) ∧ s.queue = b :: rest ∧
      t = Session.proceed { s with queue := rest } c (got ++ [b])

/-- The buffer of the call has room for the line and its terminator: the line is shorter than some
capacity and is none itself. -/
def Call.Fits (c : Call) (text : List Byte) : Prop :=
  (∃ s, Capacity (initialSize c.size) s ∧ text.length < s) ∧
    ¬Capacity (initialSize c.size) text.length

/-- A scan receives the end of a line only if the line fits; at the end of another line it would
store the terminator in memory that is not its own. -/
def Fitting (s : Session) : Action → Prop
  | .receive => ∀ c got, s.scan = some (c, got) → s.queue.head? = some newline → c.Fits got
  | _ => True

def string (bytes : List Byte) (i : ℕ) : Byte := bytes.getD i 0#8

/-- The scan of a line: the format is matched with the line and nothing else, the line is all that
was taken off the stream, the buffer was freed and nothing else, and no store left the buffer. -/
structure Scanned.Serves (o : Scanned) (c : Call) (text : List Byte) : Prop where
  r : o.r = ps4Ok
  matched : o.matched = some (c.format.vsscanf (string (text ++ [newline])))
  consumed : o.consumed = text.length + 1
  live : o.live = c.m.live
  inside : ∀ p ∈ o.stores, p.1 < p.2

section

variable (c : Call) {text : List Byte}

private theorem receiveString_bytes (hline : newline ∉ text) (more : List Byte) (fuel : ℕ) :
    ps4KernelSocketReceiveString c.m c.td c.sock (closedStream (text ++ more)) c.size
      (text.length + fuel) =
      receiveLoop c.m (received c.td c.sock (closedStream (text ++ more))) fuel
        (after c.m (received c.td c.sock (closedStream (text ++ more))) c.size text.length) :=
  receiveLoop_after text.length
    (fun _ hi => (arrives_closedStream c.td_ne c.sock_ne text more).continues hline hi) fuel

private theorem outcome_waits (hline : newline ∉ text) : c.outcome text = none := by
  have hloop := receiveString_bytes c hline [] 0
  rw [List.append_nil, Nat.add_zero] at hloop
  rw [Call.outcome, ps4KernelSocketScanSizedWithArgumentList, if_neg c.match_ne, hloop]
  rfl

private theorem arrives_line :
    Arrives (received c.td c.sock (closedStream (text ++ [newline]))) (text ++ [newline]) := by
  have h := arrives_closedStream c.td_ne c.sock_ne (text ++ [newline]) []
  rwa [List.append_nil] at h

variable (text) in
def Call.atNewline : State :=
  lineEnd c.m c.size c.td c.sock (closedStream (text ++ [newline])) text.length

/-- The string of a line is complete when its newline is received. -/
theorem receiveString_newline (hline : newline ∉ text) :
    ps4KernelSocketReceiveString c.m c.td c.sock (closedStream (text ++ [newline])) c.size
      (text ++ [newline]).length =
      some (c.atNewline text).finish := by
  have hlast : received c.td c.sock (closedStream (text ++ [newline])) text.length =
      ⟨ps4Ok, some newline⟩ := by
    rw [received_closedStream c.td_ne c.sock_ne, List.getElem?_concat_length]
  rw [List.length_append, List.length_singleton, receiveString_bytes c hline, receiveLoop,
    (inRound_after c.m _ c.size text.length).rounds, hlast, if_neg (not_not_intro rfl), if_pos]
  · rfl
  · exact take_cell _ _ _

variable (text) in
/-- The block of the line is freed, and the other blocks are those in front of the call. -/
theorem free_line :
    ps4KernelMemoryFree (c.atNewline text).finish.live (c.atNewline text).buffer.base =
      some c.m.live := by
  have hround : InRound c.m c.size text.length (c.atNewline text) :=
    (inRound_after c.m (received c.td c.sock (closedStream (text ++ [newline]))) c.size
      text.length).take
      ⟨ps4Ok, some newline⟩
  obtain ⟨j, hbase⟩ := hround.base
  have hlive : (c.atNewline text).finish.live = (c.atNewline text).buffer.base :: c.m.live :=
    hround.live
  have hne : (c.atNewline text).buffer.base ≠ 0#64 := hbase.symm ▸ c.place_ne j
  rw [hlive, ps4KernelMemoryFree, if_neg hne, if_pos (by simp), List.erase_cons_head]

/-- The memory that holds a line is a string like the line itself. -/
theorem vsscanf_line {b : Buffer} (h : b.Holds (text ++ [newline, 0])) (f : Format) :
    f.vsscanf b.cells = f.vsscanf (string (text ++ [newline])) := by
  have hcells : ∀ i ≤ text.length + 1, b.cells i = string (text ++ [newline]) i := by
    intro i hi
    rw [h i (by rw [List.length_append]; exact Nat.lt_succ_of_le hi), string,
      List.getD_eq_getElem?_getD]
    rcases Nat.lt_or_eq_of_le hi with hlt | rfl
    · have hsame : text ++ [newline, 0] = (text ++ [newline]) ++ [0] := by simp
      have hlength : i < (text ++ [newline]).length := by simpa using hlt
      simp only [hsame, List.getElem_append_left hlength, List.getElem?_eq_getElem hlength,
        Option.getD_some]
    · simp
  refine f.reads _ _ (text.length + 1) ?_ hcells
  rw [hcells _ (Nat.le_refl _)]
  simp [string]

/-- A line that fits is served when its newline is received. -/
theorem outcome_line (hline : newline ∉ text) (hfits : c.Fits text) :
    ∃ o, c.outcome (text ++ [newline]) = some o ∧ o.Serves c text := by
  have harrives : Arrives _ (text ++ [newline]) := arrives_line c
  obtain ⟨b, hout, hholds⟩ := holds_line (m := c.m) harrives (hfits.1.imp fun _ h => ⟨h.1, h.2.le⟩)
  have hout' : (c.atNewline text).finish.out = some (b, text.length + 2) := hout
  have hbase : (c.atNewline text).buffer.base = b.base :=
    congrArg (fun out => out.1.base) (Option.some.inj hout')
  have hok : (c.atNewline text).finish.r = ps4Ok := rfl
  have hconsumed : (c.atNewline text).finish.consumed = text.length + 1 :=
    congrArg (· + 1) (harrives.stores c.m c.size text.length (by simp)).2
  refine ⟨⟨ps4Ok, some (c.format.vsscanf b.cells), c.m.live, _, _⟩, ?_,
    ⟨rfl, congrArg some (vsscanf_line hholds c.format), hconsumed, rfl,
      (inside_line_iff (m := c.m) harrives).mpr hfits⟩⟩
  rw [Call.outcome, ps4KernelSocketScanSizedWithArgumentList, if_neg c.match_ne,
    receiveString_newline c hline, Option.bind_some, if_pos hok, hout', Option.bind_some,
    ← hbase, free_line]
  rfl

end

/-- The message of a print that returns is the whole text, or there is none and the code says
why. -/
theorem allocateString_cases (k : Printing) (sz : BitVec 64) (f : Formatted)
    {r : Code} {out : Option Stored}
    (h : ps4KernelMemoryAllocateStringWithArgumentList k.nullMapped k.s k.msg k.size sz
      (some f) = some (r, out)) :
    out = some ⟨f.text ++ [0#8], f.text.length⟩ ∨ r ≠ ps4Ok ∧ out = none := by
  rw [ps4KernelMemoryAllocateStringWithArgumentList] at h
  by_cases hmax : sz + 1 < sz
  · simp only [ps4KernelMemoryAllocateStringWithArgumentList_, if_neg k.msg_ne, if_neg k.size_ne,
      if_pos hmax] at h
    obtain ⟨rfl, rfl⟩ := Prod.mk.inj (Option.some.inj h)
    exact .inr ⟨by decide, rfl⟩
  · rw [allocateString_eq k.s_ne k.msg_ne k.size_ne hmax] at h
    split_ifs at h
    all_goals obtain ⟨rfl, rfl⟩ := Prod.mk.inj (Option.some.inj h)
    · exact .inr ⟨by decide, rfl⟩
    · exact .inr ⟨by decide, rfl⟩
    · exact .inl rfl

theorem Print.call_ok {p : Print} {given : List Byte} (h : p.call = some (ps4Ok, given)) :
    given = p.text := by
  obtain ⟨k, td, sock, sz, format⟩ := p
  change ps4KernelSocketPrintSizedWithArgumentList k td sock sz format = _ at h
  by_cases htd : td = 0#64
  · simp only [ps4KernelSocketPrintSizedWithArgumentList, if_pos htd] at h
    exact absurd (congrArg Prod.fst (Option.some.inj h))
      (show ¬ps4ErrorArgumentThreadMissing = ps4Ok by decide)
  cases format with
  | none =>
    simp only [ps4KernelSocketPrintSizedWithArgumentList, if_neg htd] at h
    exact (congrArg Prod.snd (Option.some.inj h)).symm
  | some f =>
    rw [ps4KernelSocketPrintSizedWithArgumentList, if_neg htd] at h
    obtain ⟨⟨r, out⟩, hcall, hsend⟩ := Option.map_eq_some_iff.mp h
    rcases allocateString_cases k sz f hcall with rfl | ⟨hr, rfl⟩
    · change ps4KernelSocketSend k td sock (f.text ++ [0#8]) f.text.length = _ at hsend
      rw [ps4KernelSocketSend, if_neg htd] at hsend
      split_ifs at hsend
      · exact absurd (congrArg Prod.fst hsend)
          (show ¬ps4ErrorArgumentPrimaryMissing = ps4Ok by decide)
      · exact absurd (congrArg Prod.fst hsend) (show ¬ps4ErrorArgumentSizeNull = ps4Ok by decide)
      · exact (congrArg Prod.snd hsend).symm.trans List.take_left
    · exact absurd (congrArg Prod.fst hsend) hr

/-- The lines of the scans that returned: together with the bytes of the scan that waits and those
that were not yet received they are all that was sent, and each scan served its own line. -/
structure Accounted (s : Session) (texts : List (List Byte)) : Prop where
  lines : ∀ text ∈ texts, newline ∉ text
  waits : newline ∉ s.got
  sent : s.sent = (texts.map (· ++ [newline])).flatten ++ (s.got ++ s.queue)
  served : List.Forall₂ (fun a text => a.2.Serves a.1 text) s.answers texts

section

variable {s t : Session} {texts : List (List Byte)} {c : Call} {got : List Byte}

private theorem proceed_waits (hgot : newline ∉ got) :
    s.proceed c got = { s with scan := some (c, got) } := by
  rw [Session.proceed, outcome_waits c hgot]

private theorem proceed_line {o : Scanned} (h : c.outcome got = some o) :
    s.proceed c got = { s with scan := none, answers := s.answers ++ [(c, o)] } := by
  rw [Session.proceed, h]

theorem Accounted.print (h : Accounted s texts) (bytes : List Byte) :
    Accounted { s with sent := s.sent ++ bytes, queue := s.queue ++ bytes } texts where
  lines := h.lines
  waits := h.waits
  sent := by
    change s.sent ++ bytes = _ ++ (s.got ++ (s.queue ++ bytes))
    rw [h.sent, List.append_assoc, List.append_assoc]
  served := h.served

theorem Accounted.scan (h : Accounted s texts) (hscan : s.scan = none) (c : Call) :
    Accounted (s.proceed c []) texts := by
  have hgot : s.got = [] := by rw [Session.got, hscan]; rfl
  rw [proceed_waits List.not_mem_nil]
  refine ⟨h.lines, List.not_mem_nil, ?_, h.served⟩
  rw [h.sent, hgot]
  rfl

private theorem got_of_scan (hscan : s.scan = some (c, got)) : s.got = got := by
  rw [Session.got, hscan]
  rfl

/-- A byte inside a line is kept, and at the newline the line is served. -/
theorem Accounted.receive (h : Accounted s texts) (hscan : s.scan = some (c, got)) {b : Byte}
    {rest : List Byte} (hqueue : s.queue = b :: rest) (hfits : b = newline → c.Fits got) :
    ∃ texts', Accounted (Session.proceed { s with queue := rest } c (got ++ [b])) texts' := by
  have hgot := got_of_scan hscan
  have hline : newline ∉ got := hgot ▸ h.waits
  have hsent := h.sent
  rw [hgot, hqueue] at hsent
  by_cases hb : b = newline
  · subst hb
    obtain ⟨o, ho, hserves⟩ := outcome_line c hline (hfits rfl)
    refine ⟨texts ++ [got], ?_⟩
    rw [proceed_line ho]
    refine ⟨?_, List.not_mem_nil, ?_, ?_⟩
    · intro text htext
      rcases List.mem_append.mp htext with htext | htext
      · exact h.lines text htext
      · rwa [List.mem_singleton.mp htext]
    · rw [hsent]
      simp [Session.got]
    · exact List.rel_append h.served (.cons hserves .nil)
  · have hmore : newline ∉ got ++ [b] := by
      simp [hline, Ne.symm hb]
    refine ⟨texts, ?_⟩
    rw [proceed_waits hmore]
    refine ⟨h.lines, hmore, ?_, h.served⟩
    rw [hsent]
    simp [Session.got]

theorem Accounted.step {a : Action} (h : Accounted s texts) (hstep : Guarded Fitting Step s a t) :
    ∃ texts', Accounted t texts' := by
  obtain ⟨hfits, hstep⟩ := hstep
  cases a with
  | print p bytes =>
    obtain ⟨_, rfl⟩ := hstep
    exact ⟨texts, h.print bytes⟩
  | scan c =>
    obtain ⟨hscan, rfl⟩ := hstep
    exact ⟨texts, h.scan hscan c⟩
  | receive =>
    obtain ⟨c, got, b, rest, hscan, hqueue, rfl⟩ := hstep
    exact h.receive hscan hqueue fun hb => hfits c got hscan (by rw [hqueue, hb]; rfl)

/-- A scan that waits ends with the line that is there, whatever else is done later. -/
theorem receives_line {text rest : List Byte} (hscan : s.scan = some (c, got))
    (hqueue : s.queue = text ++ newline :: rest) (hline : newline ∉ got ++ text)
    (hfits : c.Fits (got ++ text)) :
    ∃ t o, Run (Guarded Fitting Step) s (List.replicate (text.length + 1) .receive) t ∧
    t.scan = none ∧
      t.queue = rest ∧ t.answers = s.answers ++ [(c, o)] ∧ o.Serves c (got ++ text) := by
  induction text generalizing s got with
  | nil =>
    rw [List.append_nil] at hline hfits
    obtain ⟨o, ho, hserves⟩ := outcome_line c hline hfits
    refine ⟨_, o, .single ⟨?_, c, got, newline, rest, hscan, hqueue, rfl⟩, ?_⟩
    · intro c' got' hscan' _
      obtain ⟨rfl, rfl⟩ := Prod.mk.inj (Option.some.inj (hscan'.symm.trans hscan))
      exact hfits
    · rw [proceed_line ho, List.append_nil]
      exact ⟨rfl, rfl, rfl, hserves⟩
  | cons b text ih =>
    have hb : b ≠ newline := by
      rintro rfl
      simp at hline
    have happend : got ++ b :: text = (got ++ [b]) ++ text := by simp
    rw [happend] at hline hfits
    have hmore : newline ∉ got ++ [b] := fun h => hline (List.mem_append_left _ h)
    obtain ⟨t, o, hrun, hend⟩ :=
      ih (s := { s with queue := text ++ newline :: rest, scan := some (c, got ++ [b]) })
      rfl rfl hline hfits
    refine ⟨t, o, .cons ⟨?_, c, got, b, _, hscan, hqueue, ?_⟩ hrun, happend ▸ hend⟩
    · intro _ _ _ hhead
      rw [hqueue] at hhead
      exact absurd (Option.some.inj hhead) hb
    · rw [proceed_waits hmore]
      rfl

end

/-- What a print is to send. -/
def Action.text : Action → List Byte
  | .print p _ => p.text
  | _ => []

private theorem Session.proceed_sent (s : Session) (c : Call) (got : List Byte) :
    (s.proceed c got).sent = s.sent := by
  unfold Session.proceed
  split <;> rfl

theorem run_sent {s t : Session} {actions : List Action}
    (h : Run (Guarded Fitting Step) s actions t) (hok : ∀ p bytes, Action.print p bytes ∈ actions →
      p.Succeeds) :
    t.sent = s.sent ++ actions.flatMap Action.text := by
  induction h with
  | nil s => simp
  | @cons s u t a actions first rest ih =>
    rw [ih fun p bytes hp => hok p bytes (List.mem_cons_of_mem _ hp), List.flatMap_cons,
      ← List.append_assoc]
    congr 1
    obtain ⟨_, hstep⟩ := first
    cases a with
    | print p bytes =>
      obtain ⟨⟨r, given, hreturned, _, hwhole⟩, rfl⟩ := hstep
      obtain ⟨sent, hcall⟩ := hok p bytes List.mem_cons_self
      obtain ⟨rfl, rfl⟩ := Prod.mk.inj (Option.some.inj (hreturned.symm.trans hcall))
      exact congrArg (s.sent ++ ·) ((hwhole rfl).trans (Print.call_ok hcall))
    | scan c =>
      obtain ⟨_, rfl⟩ := hstep
      exact (s.proceed_sent c []).trans (List.append_nil _).symm
    | receive =>
      obtain ⟨c, got, b, rest, _, _, rfl⟩ := hstep
      exact (Session.proceed_sent _ c _).trans (List.append_nil _).symm

/-- However prints and the bytes of scans are interleaved, each scan serves one line of what was
sent, in order, and no byte is lost or taken twice. What was sent is the text of the prints if they
succeed. A scan that waits ends by receiving alone when the rest of its line is there. -/
theorem scans_serve_printed_lines {actions : List Action} {s : Session}
    (h : Run (Guarded Fitting Step) Session.start actions s) :
    (∃ texts, Accounted s texts) ∧
    ((∀ p bytes, Action.print p bytes ∈ actions → p.Succeeds) →
      s.sent = actions.flatMap Action.text) ∧
    ∀ c got text rest, s.scan = some (c, got) → s.queue = text ++ newline :: rest → newline ∉ text →
      c.Fits (got ++ text) →
      ∃ t o, Run (Guarded Fitting Step) s (List.replicate (text.length + 1) .receive) t ∧
      t.scan = none ∧
        t.queue = rest ∧ t.answers = s.answers ++ [(c, o)] ∧ o.Serves c (got ++ text) := by
  have hstart : Accounted Session.start [] := ⟨by simp, List.not_mem_nil, rfl, .nil⟩
  obtain ⟨texts, haccounted⟩ := h.invariant_exists
    (fun texts u a v (hs : Accounted u texts) hstep => hs.step hstep) hstart
  refine ⟨⟨texts, haccounted⟩, fun hok => (run_sent h hok).trans (List.nil_append _), ?_⟩
  intro c got text rest hscan hqueue htext hfits
  refine receives_line hscan hqueue (fun hmem => ?_) hfits
  rcases List.mem_append.mp hmem with hgot | hmem
  · exact haccounted.waits (got_of_scan hscan ▸ hgot)
  · exact htext hmem

/-- A print of a text that `sosend` takes. -/
def plainPrint (f : Formatted) : Print where
  k := ⟨false, 0xfffff80041000000, 0xffffff8012340010, 0xffffff8012340018, fun _ => ps4Ok,
    by decide, by decide, by decide⟩
  td := 0xfffff80042000000
  sock := 0xfffff80043000000
  sz := 0#64
  format := some f

/-- A scan that looks at the first byte. -/
def letterScan : Call where
  td := 0xfffff80044000000
  sock := 0xfffff80045000000
  size := 0#64
  matchAddress := 0xffffff8056780020
  format := ⟨fun c => if c 0 = 0x61 then 1#32 else 0#32,
    fun _ _ n _ h => by rw [h 0 (Nat.zero_le n)]⟩
  data := 0xffffff8056780028
  m := plainAllocator 0xffffff8056780028 fun _ _ => 0#8
  td_ne := by decide
  sock_ne := by decide
  match_ne := by decide
  place_ne := fun _ => show (0xffffff8056780028 + 1 : Address) ≠ 0#64 by decide

theorem letterScan_fits {text : List Byte} (h : text.length < 1024) : letterScan.Fits text := by
  have hfirst : initialSize letterScan.size = 1024 := by decide
  rw [Call.Fits, hfirst]
  refine ⟨⟨1024, capacity_first (Nat.le_refl _), h⟩, ?_⟩
  rintro ⟨j, hj, _⟩
  have hpos : 1 ≤ 2 ^ j := Nat.one_le_two_pow
  omega

theorem scans_serve_printed_lines_parts : ∃ s t o,
    Run (Guarded Fitting Step) Session.start [.print (plainPrint ⟨[0x61], by decide⟩) [0x61],
      .scan letterScan, .print (plainPrint ⟨[0x62, newline], by decide⟩) [0x62, newline]] s ∧
    Run (Guarded Fitting Step) s (List.replicate 3 .receive) t ∧ t.answers = [(letterScan, o)] ∧
    o.Serves letterScan [0x61, 0x62] := by
  have hrun : Run (Guarded Fitting Step) Session.start
      [.print (plainPrint ⟨[0x61], by decide⟩) [0x61], .scan letterScan,
        .print (plainPrint ⟨[0x62, newline], by decide⟩) [0x62, newline]]
      ⟨[0x61, 0x62, newline], [0x61, 0x62, newline], some (letterScan, []), []⟩ := by
    refine .cons ⟨trivial, ⟨ps4Ok, [0x61], by decide, List.prefix_refl _, fun _ => rfl⟩, rfl⟩
      (.cons ⟨trivial, rfl, rfl⟩ ?_)
    rw [proceed_waits List.not_mem_nil]
    exact .single ⟨trivial, ⟨ps4Ok, [0x62, newline], by decide, List.prefix_refl _, fun _ => rfl⟩,
      rfl⟩
  obtain ⟨t, o, hreceives, _, _, hanswers, hserves⟩ :=
    (scans_serve_printed_lines hrun).2.2 letterScan [] [0x61, 0x62] [] rfl rfl (by decide)
      (letterScan_fits (by decide))
  exact ⟨_, t, o, hrun, hreceives, hanswers, hserves⟩

end Ps4Sdk.SocketSessions

import Ps4Sdk.SystemCallHookMemory

/-!
# The system call hook handler in memory is the handler of the shared fields

The fields that the handler shares with the hooks are six ranges of the memory. With
callees that leave the table of the clone alone, the handler on bytes takes the same
steps as the handler on the fields and the rest of the memory.
-/

namespace Ps4Sdk.SystemCallHookMemory
open ByteMemory AssemblyMachines CallSequences FunctionHookTables
open SystemCallHookHandler (controlContinue Shared Behaviour Frame prepared preLoop postLoop)

/-! ### The shared fields -/

section Fields

variable (td uap : Address)

def fields (s : Shared Bytes) : List (Address × List (BitVec 8)) :=
  [(uap + 64, wordBytes 4 s.sysret.toNat), (uap + 72, wordBytes 8 s.return0.toNat),
    (uap + 80, wordBytes 8 s.return1.toNat),
    (uap + 144, wordBytes 8 (BitVec.ofInt 64 s.hookTypeCurrent).toNat),
    (td + 0x380, wordBytes 8 s.threadReturn0.toNat),
    (td + 0x388, wordBytes 8 s.threadReturn1.toNat)]

def memoryOf (s : Shared Bytes) : Bytes := writeAll s.world (fields td uap s)

def ranges : List (Address × ℕ) :=
  [(uap + 64, 4), (uap + 72, 8), (uap + 80, 8), (uap + 144, 8), (td + 0x380, 8), (td + 0x388, 8)]

private theorem map_fields (s : Shared Bytes) :
    (fields td uap s).map (fun p => (p.1, p.2.length)) = ranges td uap := by
  simp [fields, ranges]

def view (m : Bytes) : Shared Bytes where
  sysret := sysret m uap
  return0 := return0 m uap
  return1 := return1 m uap
  hookTypeCurrent := (wordAt m (uap + 144)).toInt
  threadReturn0 := wordAt m (td + 0x380)
  threadReturn1 := wordAt m (td + 0x388)
  world := m

def onFields (call : Bytes → BitVec 32 × Bytes) (s : Shared Bytes) : BitVec 32 × Shared Bytes :=
  let out := call (memoryOf td uap s)
  (out.1, view td uap out.2)

def behaviour (call : Callee) (allocator : Allocator) : Behaviour Bytes where
  specific hook := onFields td uap fun m => call hook td (sysuap m uap) m
  generic hook := onFields td uap fun m => call hook td uap m
  originalCall := onFields td uap fun m => call (originalCall m uap) td (sysuap m uap) m
  freed _ := residueSysret allocator uap

def stateOf (f : Frame Bytes) : State := ⟨memoryOf td uap f.shared, f.calls⟩

end Fields

variable {td uap : Address}

theorem memoryOf_view (td uap : Address) (m : Bytes) : memoryOf td uap (view td uap m) = m := by
  have hint := wordBytes_cellsAt m (uap + 64) 4
  have hword := fun a : Address => wordBytes_cellsAt m a 8
  apply writeAll_self
  simp [fields, view, sysret, return0, return1, intAt, wordAt] at hint hword ⊢
  simp [hint, hword]

private theorem memoryOf_onFields (call : Bytes → BitVec 32 × Bytes) (s : Shared Bytes) :
    memoryOf td uap (onFields td uap call s).2 = (call (memoryOf td uap s)).2 := memoryOf_view ..

def entryAt (m : Bytes) (uap : Address) (i : ℕ) : Entry := ⟨i, hookAt m uap i, hookTypeAt m uap i⟩

private theorem entryAt_hook (m : Bytes) (uap : Address) (i : ℕ) :
    (entryAt m uap i).hook = hookAt m uap i := by
  rw [entryAt]

private theorem entryAt_type (m : Bytes) (uap : Address) (i : ℕ) :
    (entryAt m uap i).type = hookTypeAt m uap i := by
  rw [entryAt]

def entriesAt (m : Bytes) (uap : Address) : List Entry :=
  (List.range (hookCount m uap)).map (entryAt m uap)

def preStep (b : Behaviour Bytes) (e : Entry) (r : BitVec 32) (f : Frame Bytes) :
    BitVec 32 × Frame Bytes :=
  if e.type = -1 then f.called e (b.specific e.hook { f.shared with hookTypeCurrent := -1 })
  else if e.type = 1 ∨
  e.type = 3 then f.called e (b.generic e.hook { f.shared with hookTypeCurrent := 1 })
  else (r, f)

def postStep (b : Behaviour Bytes) (e : Entry) (r : BitVec 32) (f : Frame Bytes) :
    BitVec 32 × Frame Bytes :=
  if e.type = 2 ∨ e.type = 3 then f.called e (b.generic e.hook f.shared) else (r, f)

/-- The shared fields have no byte in common with one another and with a set of addresses that has
the table, and the callees leave what is there. -/
structure Undisturbed (call : Callee) (td uap : Address) (m : Bytes)
    (S : Address → Prop) : Prop where
  separated : (ranges td uap).Pairwise fun p q => Apart p.1 p.2 q.1 q.2
  outside : ∀ x, S x → ∀ p ∈ ranges td uap, ¬Inside p.1 p.2 x
  pointers : Covers S (uap + 112) 24
  hooks : ∀ i < hookCount m uap, Covers S (wordAt m (uap + 112) + BitVec.ofNat 64 (8 * i)) 8
  types : ∀ i < hookCount m uap, Covers S (wordAt m (uap + 120) + BitVec.ofNat 64 (8 * i)) 8
  keeps : ∀ f a m', Agrees S m m' → Agrees S m (call f td a m').2

namespace Undisturbed

variable {call : Callee} {m : Bytes} {S : Address → Prop} (h : Undisturbed call td uap m S)
include h

private theorem separated_fields (s : Shared Bytes) : Separated (fields td uap s) := by
  have hr := h.separated
  rw [← map_fields td uap s, List.pairwise_map] at hr
  exact hr

/-! Stores to the fields. -/

private theorem put_sysret (s : Shared Bytes) (v : BitVec 32) :
    putInt (memoryOf td uap s) (uap + 64) v = memoryOf td uap { s with sysret := v } :=
  write_writeAll _ (h.separated_fields s) (k := 0) (by simp [fields]) (by simp [fields])

private theorem put_return0 (s : Shared Bytes) (v : Word) :
    putWord (memoryOf td uap s) (uap + 72) v = memoryOf td uap { s with return0 := v } :=
  write_writeAll _ (h.separated_fields s) (k := 1) (by simp [fields]) (by simp [fields])

private theorem put_return1 (s : Shared Bytes) (v : Word) :
    putWord (memoryOf td uap s) (uap + 80) v = memoryOf td uap { s with return1 := v } :=
  write_writeAll _ (h.separated_fields s) (k := 2) (by simp [fields]) (by simp [fields])

private theorem put_hookTypeCurrent (s : Shared Bytes) (type : ℤ) :
    setHookTypeCurrent (memoryOf td uap s) uap type =
      memoryOf td uap { s with hookTypeCurrent := type } :=
  write_writeAll _ (h.separated_fields s) (k := 3) (by simp [fields]) (by simp [fields])

private theorem put_threadReturn0 (s : Shared Bytes) (v : Word) :
    putWord (memoryOf td uap s) (td + 0x380) v = memoryOf td uap { s with threadReturn0 := v } :=
  write_writeAll _ (h.separated_fields s) (k := 4) (by simp [fields]) (by simp [fields])

private theorem put_threadReturn1 (s : Shared Bytes) (v : Word) :
    putWord (memoryOf td uap s) (td + 0x388) v = memoryOf td uap { s with threadReturn1 := v } :=
  write_writeAll _ (h.separated_fields s) (k := 5) (by simp [fields]) (by simp [fields])

/-! What the fields and the table hold. -/

private theorem read_return0 (s : Shared Bytes) : return0 (memoryOf td uap s) uap = s.return0 :=
  (congrArg (wordAt · (uap + 72)) (h.put_return0 s s.return0)).symm.trans (wordAt_putWord ..)

private theorem read_return1 (s : Shared Bytes) : return1 (memoryOf td uap s) uap = s.return1 :=
  (congrArg (wordAt · (uap + 80)) (h.put_return1 s s.return1)).symm.trans (wordAt_putWord ..)

private theorem read_threadReturn0 (s : Shared Bytes) :
    wordAt (memoryOf td uap s) (td + 0x380) = s.threadReturn0 :=
  (congrArg (wordAt · (td + 0x380)) (h.put_threadReturn0 s s.threadReturn0)).symm.trans
  (wordAt_putWord ..)

private theorem read_threadReturn1 (s : Shared Bytes) :
    wordAt (memoryOf td uap s) (td + 0x388) = s.threadReturn1 :=
  (congrArg (wordAt · (td + 0x388)) (h.put_threadReturn1 s s.threadReturn1)).symm.trans
  (wordAt_putWord ..)

private theorem agrees_memoryOf {s : Shared Bytes} (hs : Agrees S m s.world) :
    Agrees S m (memoryOf td uap s) :=
  fun x hx => (writeAll_outside _ fun p hp => h.outside x hx (p.1, p.2.length) (by
    rw [← map_fields td uap s]
    exact List.mem_map_of_mem hp)).trans (hs x hx)

private theorem agrees_onFields {s : Shared Bytes} (hs : Agrees S m s.world) (f : Bytes → Address)
    (a : Bytes → Address) :
    Agrees S m (onFields td uap (fun m => call (f m) td (a m) m) s).2.world :=
  h.keeps _ _ _ (h.agrees_memoryOf hs)

variable {m' : Bytes} (hm : Agrees S m m')
include hm

theorem pointer_eq {o : ℕ} (ho : 112 ≤ o ∧ o + 8 ≤ 136) :
    wordAt m' (uap + BitVec.ofNat 64 o) = wordAt m (uap + BitVec.ofNat 64 o) := by
  refine hm.word fun x hx => h.pointers x ?_
  have he : uap + BitVec.ofNat 64 o = uap + 112 + BitVec.ofNat 64 (o - 112) := by
    rw [BitVec.add_assoc]
    congr 1
    bv_omega
  rw [he] at hx
  exact hx.of_add (by omega)

private theorem hookCount_eq : hookCount m' uap = hookCount m uap :=
  congrArg BitVec.toNat (h.pointer_eq hm (o := 128) (by decide))

private theorem hookAt_eq {i : ℕ} (hi : i < hookCount m uap) :
    hookAt m' uap i = (entryAt m uap i).hook := by
  have hhook : wordAt m' (uap + 112) = wordAt m (uap + 112) :=
    h.pointer_eq hm (o := 112) (by decide)
  rw [entryAt_hook, hookAt, hookAt, hhook, hm.word (h.hooks i hi)]

private theorem hookTypeAt_eq {i : ℕ} (hi : i < hookCount m uap) :
    hookTypeAt m' uap i = (entryAt m uap i).type := by
  have htype : wordAt m' (uap + 120) = wordAt m (uap + 120) :=
    h.pointer_eq hm (o := 120) (by decide)
  rw [entryAt_type, hookTypeAt, hookTypeAt, htype, hm.word (h.types i hi)]

omit hm

/-! ### The loops -/

variable (allocator : Allocator)

private theorem callHook_eq {i : ℕ} (hi : i < hookCount m uap) (a : Bytes → Address)
    {f : Frame Bytes} {s : Shared Bytes} (hs : Agrees S m s.world) :
    let out := f.called (entryAt m uap i) (onFields td uap
      (fun m' => call (entryAt m uap i).hook td (a m') m') s)
    callHook call td uap i a ⟨memoryOf td uap s, f.calls⟩ = (out.1, stateOf td uap out.2) ∧
      Agrees S m out.2.shared.world := by
  refine ⟨?_, h.agrees_onFields hs (fun _ => (entryAt m uap i).hook) a⟩
  simp only [callHook, stateOf, h.hookAt_eq (h.agrees_memoryOf hs) hi, State.called, Frame.called,
    memoryOf_onFields]
  rfl

theorem preEntry_eq {i : ℕ} (hi : i < hookCount m uap) (r : BitVec 32) {f : Frame Bytes}
    (hf : Agrees S m f.shared.world) :
    let out := preStep (behaviour td uap call allocator) (entryAt m uap i) r f
    preEntry call td uap i r (stateOf td uap f) = (out.1, stateOf td uap out.2) ∧
      Agrees S m out.2.shared.world := by
  have htype := h.hookTypeAt_eq (h.agrees_memoryOf hf) hi
  intro out
  by_cases h₁ : (entryAt m uap i).type = -1
  · rw [show out = f.called (entryAt m uap i) _ from if_pos h₁]
    simp only [preEntry, stateOf, htype, h₁, h.put_hookTypeCurrent, if_true]
    exact h.callHook_eq hi (sysuap · uap) hf
  · by_cases h₂ : (entryAt m uap i).type = 1 ∨ (entryAt m uap i).type = 3
    · rw [show out = f.called (entryAt m uap i) _ from (if_neg h₁).trans (if_pos h₂)]
      simp only [preEntry, stateOf, htype, h₁, h₂, h.put_hookTypeCurrent, if_true, if_false]
      exact h.callHook_eq hi (fun _ => uap) hf
    · rw [show out = (r, f) from (if_neg h₁).trans (if_neg h₂)]
      simp only [preEntry, stateOf, htype, h₁, h₂, if_false]
      exact ⟨trivial, hf⟩

theorem postEntry_eq {i : ℕ} (hi : i < hookCount m uap) (r : BitVec 32) {f : Frame Bytes}
    (hf : Agrees S m f.shared.world) :
    let out := postStep (behaviour td uap call allocator) (entryAt m uap i) r f
    postEntry call td uap i r (stateOf td uap f) = (out.1, stateOf td uap out.2) ∧
      Agrees S m out.2.shared.world := by
  have htype := h.hookTypeAt_eq (h.agrees_memoryOf hf) hi
  intro out
  by_cases h₁ : (entryAt m uap i).type = 2 ∨ (entryAt m uap i).type = 3
  · rw [show out = f.called (entryAt m uap i) _ from if_pos h₁]
    simp only [postEntry, stateOf, htype, h₁, if_true]
    exact h.callHook_eq hi (fun _ => uap) hf
  · rw [show out = (r, f) from if_neg h₁]
    simp only [postEntry, stateOf, htype, h₁, if_false]
    exact ⟨trivial, hf⟩

/-- A loop on the bytes and the loop over the entries that takes the same steps. -/
theorem loop_eq {entry : ℕ → BitVec 32 → State → BitVec 32 × State}
    (step : Entry → BitVec 32 → Frame Bytes → BitVec 32 × Frame Bytes)
    (run : List Entry → BitVec 32 → Frame Bytes → BitVec 32 × Frame Bytes)
    (nil : ∀ r f, run [] r f = (r, f))
    (cons : ∀ e es r f, run (e :: es) r f =
      if (step e r f).1 ≠ controlContinue then step e r f else run es (step e r f).1 (step e r f).2)
    (hstep : ∀ i < hookCount m uap, ∀ r f, Agrees S m f.shared.world →
      entry i r (stateOf td uap f) =
          ((step (entryAt m uap i) r f).1, stateOf td uap (step (entryAt m uap i) r f).2) ∧
        Agrees S m (step (entryAt m uap i) r f).2.shared.world)
    (i : ℕ) (r : BitVec 32) (f : Frame Bytes) (hf : Agrees S m f.shared.world) :
    let out := run ((entriesAt m uap).drop i) r f
    loop entry uap i r (stateOf td uap f) = (out.1, stateOf td uap out.2) ∧
      Agrees S m out.2.shared.world := by
  have hcount := fun {f : Frame Bytes} (hf : Agrees S m f.shared.world) => h.hookCount_eq
    (h.agrees_memoryOf hf)
  -- Induction on the number of entries that are left.
  induction hn : hookCount m uap - i generalizing i r f with
  | zero =>
    have hdrop : (entriesAt m uap).drop i = [] :=
      List.drop_eq_nil_of_le (by simp [entriesAt]; omega)
    rw [loop, if_neg (by rw [stateOf, hcount hf]; omega), hdrop, nil]
    exact ⟨rfl, hf⟩
  | succ n ih =>
    have hi : i < hookCount m uap := by omega
    have hdrop : (entriesAt m uap).drop i = entryAt m uap i :: (entriesAt m uap).drop (i + 1) := by
      rw [List.drop_eq_getElem_cons (by simpa [entriesAt] using hi)]
      simp [entriesAt]
    obtain ⟨he, hkeeps⟩ := hstep i hi r f hf
    rw [loop, if_pos (by rw [stateOf, hcount hf]; omega), hdrop, cons, he]
    by_cases hc : (step (entryAt m uap i) r f).1 = controlContinue
    · simp only [hc, ne_eq, not_true, if_false]
      exact ih (i + 1) _ _ hkeeps (by omega)
    · simp only [hc, ne_eq, not_false_eq_true, if_true]
      exact ⟨trivial, hkeeps⟩

/-! ### The handler -/

theorem perform_eq (r : BitVec 32) {f : Frame Bytes} (hf : Agrees S m f.shared.world) :
    perform call td uap r (stateOf td uap f) = stateOf td uap
      (SystemCallHookHandler.perform (behaviour td uap call allocator) (entriesAt m uap) r f) := by
  have hloop := h.loop_eq (postStep (behaviour td uap call allocator))
    (postLoop (behaviour td uap call allocator)) (fun _ _ => rfl) (fun _ _ _ _ => rfl)
    (fun i hi r f hf => h.postEntry_eq allocator hi r hf) 0 r
  have hkeeps : Agrees S m ((behaviour td uap call allocator).originalCall f.shared).2.world :=
    h.agrees_onFields hf (originalCall · uap) (sysuap · uap)
  have hcall : call (originalCall (memoryOf td uap f.shared) uap) td
    (sysuap (memoryOf td uap f.shared) uap)
      (memoryOf td uap f.shared) = (((behaviour td uap call allocator).originalCall f.shared).1,
        memoryOf td uap ((behaviour td uap call allocator).originalCall f.shared).2) :=
    Prod.ext rfl (memoryOf_onFields ..).symm
  unfold perform SystemCallHookHandler.perform
  simp only [stateOf, hcall]
  generalize (behaviour td uap call allocator).originalCall f.shared = out at hkeeps
  split_ifs with hr
  · simp only [h.put_sysret, h.read_threadReturn0, h.put_return0, h.read_threadReturn1,
      h.put_return1, h.put_hookTypeCurrent]
    have hsecond := (hloop ⟨{ out.2 with
      sysret := out.1, return0 := out.2.threadReturn0, return1 :=
        out.2.threadReturn1, hookTypeCurrent := 2 },
      f.calls ++ [.original]⟩ hkeeps).1
    simp only [stateOf, List.drop_zero] at hsecond
    rw [hsecond]
  · rfl

private theorem prepared_eq :
    putWord (putWord (putWord (putInt m (uap + 64) 0) (uap + 72) 0) (uap + 80) 0) (td + 0x388) uap =
      memoryOf td uap (prepared uap (view td uap m)) := by
  have hput := congrArg (putInt · (uap + 64) 0) (memoryOf_view td uap m)
  simp only [h.put_sysret] at hput
  simp only [← hput, h.put_return0, h.put_return1, h.put_threadReturn1, prepared]

private theorem returned_eq (f : Frame Bytes) :
    (let m := putWord (memoryOf td uap f.shared) (td + 0x380)
      (return0 (memoryOf td uap f.shared) uap)
     ⟨putWord m (td + 0x388) (return1 m uap), f.calls⟩ : State) =
      stateOf td uap { f with shared :=
        { f.shared with threadReturn0 := f.shared.return0, threadReturn1 := f.shared.return1 }
            } := by
  simp only [stateOf, h.read_return0, h.put_threadReturn0, h.read_return1, h.put_threadReturn1]

theorem preLoop_eq :
    let out := preLoop (behaviour td uap call allocator) (entriesAt m uap) controlContinue
      ⟨prepared uap (view td uap m), []⟩
    loop (preEntry call td uap) uap 0 controlContinue
        ⟨memoryOf td uap (prepared uap (view td uap m)), []⟩ =
      (out.1, stateOf td uap out.2) ∧ Agrees S m out.2.shared.world := by
  have hloop := h.loop_eq (preStep (behaviour td uap call allocator))
    (preLoop (behaviour td uap call allocator)) (fun _ _ => rfl) (fun _ _ _ _ => rfl)
    (fun i hi r f hf => h.preEntry_eq allocator hi r hf) 0 controlContinue
    ⟨prepared uap (view td uap m), []⟩
  rw [List.drop_zero] at hloop
  exact hloop fun _ _ => rfl

/-- With callees that leave the table alone, the handler on the bytes calls the same callees
with the same controls and leaves the same memory as the handler on the shared fields. -/
theorem handler_eq :
    beforeCleanup call td uap m =
      stateOf td uap (SystemCallHookHandler.ps4PayloadSystemCallHookHandler
        (behaviour td uap call allocator) uap (entriesAt m uap) (view td uap m)).2 := by
  obtain ⟨hloop, hkeeps⟩ := h.preLoop_eq allocator
  rw [SystemCallHookHandler.handler_eq_perform]
  generalize preLoop (behaviour td uap call allocator) (entriesAt m uap) controlContinue
    ⟨prepared uap (view td uap m), []⟩ = p at hloop hkeeps ⊢
  unfold beforeCleanup
  simp only [h.prepared_eq]
  rw [hloop]
  simp only [h.perform_eq allocator p.1 hkeeps]
  exact h.returned_eq (SystemCallHookHandler.perform (behaviour td uap call allocator)
    (entriesAt m uap) p.1 p.2)

end Undisturbed

theorem handler_result (call : Callee) (allocator : Allocator) (m : Bytes)
    (hsize : allocator.size uap = argumentSize) :
    (ps4PayloadSystemCallHookHandler call allocator td uap m).1 =
      (SystemCallHookHandler.ps4PayloadSystemCallHookHandler (behaviour td uap call allocator) uap
        (entriesAt m uap) (view td uap m)).1 := by
  rw [SystemCallHookHandler.handler_result, behaviour]
  exact handler_eq_residue call allocator td uap m hsize

end Ps4Sdk.SystemCallHookMemory

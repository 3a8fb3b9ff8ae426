import Ps4Sdk.KernelCacheMap

/-!
# The blocks of a cache that is destroyed

`Destroy` takes the entries out one by one, frees them, and frees the cache. No block
is freed that is not live, but the copies of the names are never freed: each entry
that was ever made leaves one behind.
-/

namespace Ps4Sdk.KernelCaches
open HeapBlocks StepRuns

section
variable {base h h' : KernelHeap} {cache : Address} {slots : List Slot}
variable {table : Option (Address × Address)} {left : List (Address × Block)}

theorem Represents.destroyEntries (r : Represents base h cache slots table left) :
    ∃ h', destroyEntries cache (slots.map Slot.entry) h = .ok h' ∧
      Represents base h' cache [] none (slots.reverse.map Slot.nameBlock ++ left) := by
  induction slots generalizing h table left with
  | nil =>
    obtain rfl := r.table.mpr rfl
    exact ⟨h, rfl, r⟩
  | cons s slots ih =>
    have r₀ : Represents base h cache ([] ++ s :: slots) table left := r
    obtain ⟨h₁, h₂, hd, hf, r₂⟩ := r₀.remove
    obtain ⟨h', hrest, r'⟩ := ih r₂
    refine ⟨h', ?_, by simpa using r'⟩
    simp only [List.map_cons, KernelCaches.destroyEntries, hd, hf, bind, Except.bind]
    exact hrest

theorem Represents.destroy (r : Represents base h cache slots table left) (hc : cache ≠ 0#64) :
    ∃ h', ps4KernelCacheDestroy h cache = .ok (ps4Ok, h') ∧
      Owns base h' (slots.reverse.map Slot.nameBlock ++ left) := by
  obtain ⟨h₁, hloop, r₁⟩ := r.destroyEntries
  obtain ⟨h₂, hfree, ho⟩ := r₁.owns.free
  refine ⟨h₂, ?_, ho⟩
  simp only [ps4KernelCacheDestroy, if_neg hc, loadCache, r.cache_eq, hloop, hfree,
    bind, Except.bind]
  rfl

theorem Represents.step (r : Represents base h cache slots table left) (hc : cache ≠ 0#64)
    {action : CacheAction} (hs : CacheStep cache h action h') (hn : action ≠ .callers) :
    ∃ slots' table' left', Represents base h' cache slots' table' left' ∧
      (slots' = [] ∧ left' = [] ↔ (slots = [] ∧ left = []) ∧
        ∀ name value, action ≠ .set name value) := by
  cases hs with
  | @set _ a value name m code string fresh call =>
    obtain ⟨h₁, slots', table', hcall, r', hcontent⟩ := r.set hc string fresh value
    rw [hcall] at call
    cases call
    refine ⟨slots', table', left, r', ?_⟩
    have hne : slots' ≠ [] := by
      rintro rfl
      have hk := congrFun hcontent (keyOf name)
      rw [Function.update_self] at hk
      cases hk
    simp [hne]
  | delete string call =>
    obtain ⟨h₁, slots', table', left', hcall, r', hiff, -⟩ := r.delete hc string
    rw [hcall] at call
    cases call
    exact ⟨slots', table', left', r', by simpa using hiff⟩
  | get string call => exact ⟨slots, table, left, r, by simp⟩
  | callers others => exact absurd rfl hn

theorem Represents.run (hc : cache ≠ 0#64) {actions : List CacheAction}
    (hr : Run (CacheStep cache) h actions h') (r : Represents base h cache slots table left)
    (hn : CacheAction.callers ∉ actions) :
    ∃ slots' table' left', Represents base h' cache slots' table' left' ∧
      (slots' = [] ∧ left' = [] ↔ (slots = [] ∧ left = []) ∧
        ∀ name value, .set name value ∉ actions) := by
  induction hr generalizing slots table left with
  | nil h => exact ⟨slots, table, left, r, by simp⟩
  | cons first rest ih =>
    rw [List.mem_cons, not_or] at hn
    obtain ⟨slots₁, table₁, left₁, r₁, hiff₁⟩ := r.step hc first (Ne.symm hn.1)
    obtain ⟨slots', table', left', r', hiff⟩ := ih r₁ hn.2
    refine ⟨slots', table', left', r', ?_⟩
    rw [hiff, hiff₁, and_assoc]
    apply and_congr_right
    intro _
    simp only [List.mem_cons, not_or, forall_and, ne_eq, eq_comm]

end

/-- No call frees a block that is not live, and the live blocks after `Destroy` are those
before `Create` exactly when `Set` was never called. -/
theorem cache_lifetime_iff (h₀ : KernelHeap) (out cache : Address) (ho : out ≠ 0#64)
    (hc : cache ≠ 0#64) (fresh : h₀ cache = none) (actions : List CacheAction)
    (hn : CacheAction.callers ∉ actions) (h : KernelHeap)
    (hr : Run (CacheStep cache) (ps4KernelCacheCreate h₀ out cache).2 actions h) :
    (∀ name a value m, StringAt h a name → Supply.Fresh m h →
      (∃ h', ps4KernelCacheSet h cache a value m = .ok (ps4Ok, h')) ∧
      ∃ r, ps4KernelCacheDelete h cache a = .ok r) ∧
    ∃ h', ps4KernelCacheDestroy h cache = .ok (ps4Ok, h') ∧
      ((∀ a, h' a ≠ none ↔ h₀ a ≠ none) ↔ ∀ name value, .set name value ∉ actions) := by
  rw [ps4KernelCacheCreate, if_neg ho] at hr
  obtain ⟨slots, table, left, r, hiff⟩ := (represents_created h₀ fresh).run hc hr hn
  refine ⟨?_, ?_⟩
  · intro name a value m hs hm
    obtain ⟨h₁, -, -, hset, -⟩ := r.set hc hs hm value
    obtain ⟨h₂, -, -, -, hdelete, -⟩ := r.delete hc hs
    exact ⟨⟨h₁, hset⟩, _, hdelete⟩
  · obtain ⟨h', hdestroy, howns⟩ := r.destroy hc
    refine ⟨h', hdestroy, ?_⟩
    rw [howns.live_eq_iff]
    simpa using hiff

theorem cache_lifetime_delete_only :
    ∃ h', ps4KernelCacheDestroy (ps4KernelCacheCreate twoStrings 4#64 8#64).2 8#64 =
      .ok (ps4Ok, h') ∧
      ∀ a, h' a ≠ none ↔ twoStrings a ≠ none := by
  have hr : Run (CacheStep 8#64) (ps4KernelCacheCreate twoStrings 4#64 8#64).2 [.delete [1]]
      (ps4KernelCacheCreate twoStrings 4#64 8#64).2 :=
    .single (.delete (a := 5#64) ⟨by decide, [], rfl⟩ rfl)
  obtain ⟨-, h', hdestroy, hiff⟩ :=
    cache_lifetime_iff twoStrings 4#64 8#64 (by decide) (by decide) rfl
    [.delete [1]] (by simp) _ hr
  exact ⟨h', hdestroy, hiff.mpr (by simp)⟩

/-- After one `Set` and `Destroy` the copy of the name is still live. -/
theorem cache_name_left_behind :
    ps4KernelCacheSet (ps4KernelCacheCreate twoStrings 4#64 8#64).2 8#64 5#64 7#64
        ⟨20#64, 21#64, 22#64, 23#64, none⟩ = .ok (ps4Ok, oneEntry) ∧
      twoStrings 21#64 = none ∧
      ∃ h', ps4KernelCacheDestroy oneEntry 8#64 = .ok (ps4Ok, h') ∧
      h' 21#64 = some (.string [1, 0]) :=
  ⟨rfl, rfl, _, rfl, rfl⟩

end Ps4Sdk.KernelCaches

/-
# The thread registry in memory

`vm_threads` points to the first registered `VMThread`, and the `next` fields link the others.
`vm_thread_create` puts a record in front, `vm_thread_detach` and `vm_thread_destroy` take it out
wherever it is; both may be called for the same record, and `vm_thread_destroy` frees it
afterwards, so that another record can be allocated in its place.  What `registry_add` and
`registry_remove` do under the lock is one step, between two of which any thread may get in.

After every run the list holds exactly the threads that were created and since then neither
detached nor destroyed (`registry_exact`).  The steps of `Dvm.Vm.Handles` have the registry as a
list of handles, which is what these functions make of the list in memory (`registry_threads`).
-/
import Dvm.Base.Linked
import Dvm.Vm.Handles

namespace Dvm

open Linked Runs

/-! ## 1. Adding and removing -/

/-- `vm_threads` and the `next` fields of the records that are allocated. -/
abbrev RegistryMem := Chain Handle

/-- The records in the registry, the first first. -/
def RegistryMem.Holds (r : RegistryMem) (l : List Handle) : Prop := Seg r.heap r.head l

/-- `registry_add`. -/
def registryAdd (r : RegistryMem) (t : Handle) : Option RegistryMem := do
  let r ← r.write (.next t) r.head
  r.write .head (some t)

/-- `registry_remove`; `fuel` bounds the passes of its loop. -/
def registryRemove (fuel : Nat) (r : RegistryMem) (t : Handle) : Option RegistryMem := do
  let p ← r.walk t fuel .head
  match ← r.read p with
  | none => some r
  | some _ =>
    let next ← r.read (.next t)
    r.write p next

/-- A record that is not in the registry is put in front. -/
theorem registryAdd_holds {r : RegistryMem} {l : List Handle} {t : Handle} (h : r.Holds l)
    (ht : (r.heap t).isSome) (hnew : t ∉ l) :
    ∃ r', registryAdd r t = some r' ∧ r'.Holds (t :: l) ∧
      ∀ k, (r'.heap k).isSome = (r.heap k).isSome := by
  obtain ⟨q, hq⟩ := Option.isSome_iff_exists.mp ht
  refine ⟨{ head := some t, heap := Function.update r.heap t (some r.head) }, ?_, ?_, ?_⟩
  · simp [registryAdd, Chain.write, hq]
  · exact .cons (Function.update_self ..) (h.frame_update hnew)
  · intro k
    by_cases hk : k = t
    · subst hk
      simp [hq]
    · simp [Function.update_of_ne hk]

/-- A record that is not in the registry is not found there. -/
theorem registryRemove_absent {r : RegistryMem} {l : List Handle} {t : Handle} (h : r.Holds l)
    (ht : t ∉ l) {fuel : Nat} (hfuel : l.length < fuel) : registryRemove fuel r t = some r := by
  obtain ⟨hwalk, hread⟩ := @walk_missing _ _ _ .head _ _ _ rfl h ht fuel hfuel
  simp [registryRemove, hwalk, hread]

/-- The loop ends for every record, and only the record itself leaves the registry. -/
theorem registryRemove_holds {r : RegistryMem} {l : List Handle} (h : r.Holds l) (t : Handle)
    {fuel : Nat} (hfuel : l.length < fuel) :
    ∃ r', registryRemove fuel r t = some r' ∧ r'.Holds (l.erase t) ∧
      ∀ k, (r'.heap k).isSome = (r.heap k).isSome := by
  by_cases ht : t ∈ l
  · obtain ⟨l₁, l₂, -, rfl, herase⟩ := List.exists_erase_eq ht
    rw [List.length_append] at hfuel
    obtain ⟨hwalk, hread⟩ := @walk_found _ _ _ .head _ _ _ _ rfl h fuel (by omega)
    obtain ⟨v, hv⟩ := h.allocated (List.mem_append_right l₁ List.mem_cons_self)
    obtain ⟨r', hwrite⟩ := @write_ok _ _ _ _ _ v hread
    obtain ⟨q, hhead, hseg⟩ := @seg_unlink _ _ _ _ .head _ _ _ _ _ rfl h hv (fun a _ => nofun)
      hwrite
    refine ⟨r', ?_, ?_, write_allocated hwrite⟩
    · have hnext : r.read (.next t) = some v := hv
      simp [registryRemove, hwalk, hread, hnext, hwrite]
    · obtain rfl : r'.head = q := Option.some.inj hhead
      rwa [herase]
  · refine ⟨r, registryRemove_absent h ht hfuel, ?_, fun k => rfl⟩
    rwa [List.erase_of_not_mem ht]

/-- The registry that the functions on handles work on is this one. -/
theorem registry_threads {r : RegistryMem} {s : Threads} (h : r.Holds s.registry) (t : Handle) :
    ((r.heap t).isSome → t ∉ s.registry →
      ∃ r', registryAdd r t = some r' ∧ r'.Holds (s.registryAdd t).registry) ∧
    ∃ fuel r', registryRemove fuel r t = some r' ∧ r'.Holds (s.registryRemove t).registry := by
  constructor
  · intro ht hnew
    obtain ⟨r', hr', hholds, -⟩ := registryAdd_holds h ht hnew
    exact ⟨r', hr', hholds⟩
  · obtain ⟨r', hr', hholds, -⟩ := registryRemove_holds h t (Nat.lt_succ_self _)
    exact ⟨_, r', hr', hholds⟩

/-- More fuel changes nothing where the loop ends. -/
theorem registryRemove_mono {r r' : RegistryMem} {t : Handle} {fuel fuel' : Nat}
    (h : registryRemove fuel r t = some r') (hle : fuel ≤ fuel') :
    registryRemove fuel' r t = some r' := by
  cases hwalk : r.walk t fuel .head with
  | none => simp [registryRemove, hwalk] at h
  | some p =>
    rw [registryRemove, walk_mono hwalk hle]
    rwa [registryRemove, hwalk] at h

/-! ## 2. Steps -/

/-- How far the calls on a record are. -/
inductive Stage where
  | unallocated
  /-- `vm_thread_create` has allocated it. -/
  | creating
  /-- `vm_thread_create` has registered it. -/
  | created
  /-- `vm_thread_destroy` has removed it. -/
  | destroying
  deriving DecidableEq, Repr

structure Registry where
  mem : RegistryMem
  stage : Handle → Stage

def Registry.init : Registry where
  mem := { head := none, heap := fun _ => none }
  stage := fun _ => .unallocated

inductive RegistryEv where
  /-- `vm_thread_create` up to `registry_add`. -/
  | calloc (t : Handle)
  /-- Its `registry_add`. -/
  | create (t : Handle)
  | detach (t : Handle)
  /-- `vm_thread_destroy` up to its end. -/
  | destroy (t : Handle)
  /-- Its `free`. -/
  | free (t : Handle)
  deriving DecidableEq, Repr

/-- One step of any thread.  A record is destroyed once, and detached before it is freed. -/
inductive RegistryStep : Registry → RegistryEv → Registry → Prop
  | calloc {s : Registry} {t : Handle} : s.mem.heap t = none →
      RegistryStep s (.calloc t)
        { mem := { s.mem with heap := Function.update s.mem.heap t (some none) }
          stage := Function.update s.stage t .creating }
  | create {s : Registry} {t : Handle} {r : RegistryMem} : s.stage t = .creating →
      registryAdd s.mem t = some r →
      RegistryStep s (.create t) { mem := r, stage := Function.update s.stage t .created }
  | detach {s : Registry} {t : Handle} {fuel : Nat} {r : RegistryMem} :
      s.stage t = .created ∨ s.stage t = .destroying → registryRemove fuel s.mem t = some r →
      RegistryStep s (.detach t) { s with mem := r }
  | destroy {s : Registry} {t : Handle} {fuel : Nat} {r : RegistryMem} : s.stage t = .created →
      registryRemove fuel s.mem t = some r →
      RegistryStep s (.destroy t) { mem := r, stage := Function.update s.stage t .destroying }
  | free {s : Registry} {t : Handle} : s.stage t = .destroying →
      RegistryStep s (.free t)
        { mem := { s.mem with heap := Function.update s.mem.heap t none }
          stage := Function.update s.stage t .unallocated }

/-- Runs of any number of threads in any order. -/
def RegistryRun : List RegistryEv → Registry → Prop := Run RegistryStep Registry.init

/-- `t` was created, and neither detached nor destroyed since. -/
def Current (es : List RegistryEv) (t : Handle) : Prop :=
  Since (.create t) (fun e => e = .detach t ∨ e = .destroy t) es

/-- `t` was freed, and no record was allocated in its place since. -/
def Freed (es : List RegistryEv) (t : Handle) : Prop := Since (.free t) (· = .calloc t) es

/-! ## 3. The invariant -/

/-- What the registry is after the events `es`. -/
structure RegistryInv (es : List RegistryEv) (s : Registry) (l : List Handle) : Prop where
  holds : s.mem.Holds l
  exact : ∀ t, t ∈ l ↔ Current es t
  created : ∀ t ∈ l, s.stage t = .created
  allocated : ∀ t, s.stage t ≠ .unallocated → (s.mem.heap t).isSome
  freed : ∀ t, Freed es t → s.mem.heap t = none

theorem registryInv_init : RegistryInv [] Registry.init [] where
  holds := .nil
  exact := fun _ => iff_of_false List.not_mem_nil (not_since_nil _ _)
  created := fun _ ht => nomatch ht
  allocated := fun _ ht => absurd rfl ht
  freed := fun _ ht => (not_since_nil _ _ ht).elim

/-- The record that a step is about. -/
def RegistryEv.record : RegistryEv → Handle
  | .calloc t | .create t | .detach t | .destroy t | .free t => t

section Step

variable {es : List RegistryEv} {s s' : Registry} {l l' : List Handle} {e : RegistryEv}

/-- Events about one record leave what is said of the others. -/
theorem current_freed_ne {k : Handle} (hk : k ≠ e.record) :
    (Current (es ++ [e]) k ↔ Current es k) ∧ (Freed (es ++ [e]) k ↔ Freed es k) := by
  have hne : ∀ x : RegistryEv, x.record = k → e ≠ x := by
    rintro x rfl rfl
    exact hk rfl
  constructor
  · exact since_snoc_of_ne (hne _ rfl) (not_or.mpr ⟨hne _ rfl, hne _ rfl⟩)
  · exact since_snoc_of_ne (hne _ rfl) (hne _ rfl)

/-- A step changes the place of its record only, so that the invariant is to be seen there. -/
theorem RegistryInv.of_record {t : Handle} (hinv : RegistryInv es s l) (ht : e.record = t)
    (hholds : s'.mem.Holds l') (hlist : ∀ k, k ≠ t → (k ∈ l' ↔ k ∈ l))
    (hstage : ∀ k, k ≠ t → s'.stage k = s.stage k)
    (hheap : ∀ k, k ≠ t → (s'.mem.heap k).isSome = (s.mem.heap k).isSome)
    (hexact : t ∈ l' ↔ Current (es ++ [e]) t) (hcreated : t ∈ l' → s'.stage t = .created)
    (hallocated : s'.stage t ≠ .unallocated → (s'.mem.heap t).isSome)
    (hfreed : Freed (es ++ [e]) t → s'.mem.heap t = none) :
    RegistryInv (es ++ [e]) s' l' := by
  subst ht
  refine ⟨hholds, fun k => ?_, fun k => ?_, fun k => ?_, fun k => ?_⟩ <;>
    by_cases hk : k = e.record
  · exact hk ▸ hexact
  · rw [hlist k hk, hinv.exact, (current_freed_ne hk).1]
  · exact hk ▸ hcreated
  · rw [hlist k hk, hstage k hk]
    exact hinv.created k
  · exact hk ▸ hallocated
  · rw [hstage k hk, hheap k hk]
    exact hinv.allocated k
  · exact hk ▸ hfreed
  · intro h
    rw [(current_freed_ne hk).2] at h
    have hnone := hheap k hk
    rw [hinv.freed k h] at hnone
    exact Option.isNone_iff_eq_none.mp (Option.isSome_eq_false_iff.mp hnone)

theorem RegistryInv.not_freed (hinv : RegistryInv es s l) {t : Handle}
    (ht : s.stage t ≠ .unallocated) : ¬ Freed es t := by
  intro hfreed
  have halloc := hinv.allocated t ht
  rw [hinv.freed t hfreed] at halloc
  cases halloc

/-- Only what was created is in the registry. -/
theorem RegistryInv.not_mem (hinv : RegistryInv es s l) {t : Handle} (ht : s.stage t ≠ .created) :
    t ∉ l := fun hmem => ht (hinv.created t hmem)

/-- A record that is taken out of the registry, whatever its calls have come to. -/
theorem RegistryInv.remove (hinv : RegistryInv es s l) {t : Handle} {fuel : Nat} {r : RegistryMem}
    (h : registryRemove fuel s.mem t = some r) :
    r.Holds (l.erase t) ∧ (∀ k, (r.heap k).isSome = (s.mem.heap k).isSome) ∧
      ∀ k, k ∈ l.erase t ↔ k ≠ t ∧ k ∈ l := by
  obtain ⟨r', hr', hholds, hsame⟩ := @registryRemove_holds s.mem l hinv.holds t
    (fuel + l.length + 1) (by omega)
  rw [registryRemove_mono h (by omega), Option.some.injEq] at hr'
  subst hr'
  exact ⟨hholds, hsame, fun k => hinv.holds.nodup.mem_erase_iff⟩

/-- A record that is detached or destroyed leaves the registry. -/
theorem RegistryInv.step_remove (hinv : RegistryInv es s l) {t : Handle} {fuel : Nat}
    (he : e = .detach t ∨ e = .destroy t) (hstage : s.stage t ≠ .unallocated)
    (hremove : registryRemove fuel s.mem t = some s'.mem)
    (hother : ∀ k, k ≠ t → s'.stage k = s.stage k) : RegistryInv (es ++ [e]) s' (l.erase t) := by
  obtain ⟨hholds, hsame, hmem⟩ := hinv.remove hremove
  have hrecord : e.record = t := by
    rcases he with rfl | rfl <;> rfl
  refine hinv.of_record hrecord hholds (fun k hk => ?_) hother (fun k _ => hsame k) ?_
    (fun h => absurd rfl ((hmem t).mp h).1)
    (fun _ => (hsame t).trans (hinv.allocated t hstage)) (fun h => ?_)
  · rw [hmem, and_iff_right hk]
  · rcases he with rfl | rfl <;> simp [hmem, Current, since_snoc]
  · refine absurd ?_ (hinv.not_freed hstage)
    rcases he with rfl | rfl <;> simpa [Freed, since_snoc] using h

theorem RegistryInv.step (hinv : RegistryInv es s l) (hs : RegistryStep s e s') :
    ∃ l', RegistryInv (es ++ [e]) s' l' := by
  cases hs with
  | @calloc t ht =>
    have hnot : t ∉ l := by
      intro hmem
      obtain ⟨q, hq⟩ := hinv.holds.allocated hmem
      rw [ht] at hq
      cases hq
    refine ⟨l, hinv.of_record (t := t) rfl (hinv.holds.frame_update hnot) (fun k _ => Iff.rfl)
      (fun k hk => Function.update_of_ne hk _ _) (fun k hk => ?_) ?_ (fun h => absurd h hnot)
      (fun _ => ?_) (fun h => ?_)⟩
    · simp [Function.update_of_ne hk]
    · rw [hinv.exact]
      simp [Current, since_snoc]
    · simp
    · simp [Freed, since_snoc] at h
  | @create t r hstage hadd =>
    have hallocated : s.stage t ≠ .unallocated := by simp [hstage]
    have halloc := hinv.allocated t hallocated
    have hnot : t ∉ l := hinv.not_mem (by simp [hstage])
    obtain ⟨r', hr', hholds, hsame⟩ := registryAdd_holds hinv.holds halloc hnot
    obtain rfl : r = r' := Option.some.inj (hadd.symm.trans hr')
    refine ⟨t :: l, hinv.of_record (t := t) rfl hholds (fun k hk => ?_)
      (fun k hk => Function.update_of_ne hk _ _) (fun k _ => hsame k) ?_
      (fun _ => Function.update_self ..) (fun _ => (hsame t).trans halloc) (fun h => ?_)⟩
    · rw [List.mem_cons, or_iff_right hk]
    · exact iff_of_true List.mem_cons_self (since_snoc.mpr (.inl rfl))
    · refine absurd ?_ (hinv.not_freed hallocated)
      simpa [Freed, since_snoc] using h
  | @detach t fuel r hstage hremove =>
    have hallocated : s.stage t ≠ .unallocated := by
      rcases hstage with h | h <;> simp [h]
    exact ⟨_, hinv.step_remove (.inl rfl) hallocated hremove fun k _ => rfl⟩
  | @destroy t fuel r hstage hremove =>
    have hallocated : s.stage t ≠ .unallocated := by simp [hstage]
    exact ⟨_, hinv.step_remove (.inr rfl) hallocated hremove
      fun k hk => Function.update_of_ne hk _ _⟩
  | @free t hstage =>
    have hnot : t ∉ l := hinv.not_mem (by simp [hstage])
    refine ⟨l, hinv.of_record (t := t) rfl (hinv.holds.frame_update hnot) (fun k _ => Iff.rfl)
      (fun k hk => Function.update_of_ne hk _ _) (fun k hk => ?_) ?_ (fun h => absurd h hnot)
      (fun h => ?_) (fun _ => Function.update_self ..)⟩
    · simp [Function.update_of_ne hk]
    · rw [hinv.exact]
      simp [Current, since_snoc]
    · simp at h

end Step

/-! ## 4. Runs -/

theorem registry_inv {es : List RegistryEv} {s : Registry} (hrun : RegistryRun es s) :
    ∃ l, RegistryInv es s l := by
  refine Run.invariant (I := fun es s => ∃ l, RegistryInv es s l) ⟨[], registryInv_init⟩ ?_ hrun
  rintro es s e s' - ⟨l, hinv⟩ hs
  exact hinv.step hs

/-- After every run the list from `vm_threads` on ends with NULL, has no record twice and holds
exactly the records created and neither detached nor destroyed since, none of them freed.
Removing any record ends and leaves such a list without it; removing one that is not there changes
nothing. -/
theorem registry_exact {es : List RegistryEv} {s : Registry} (hrun : RegistryRun es s) :
    ∃ l, s.mem.Holds l ∧ l.Nodup ∧ (∀ t, t ∈ l ↔ Current es t) ∧ (∀ t, Freed es t → t ∉ l) ∧
      ∀ t fuel, l.length < fuel → ∃ r, registryRemove fuel s.mem t = some r ∧
        r.Holds (l.erase t) ∧ (¬ Current es t → r = s.mem) := by
  obtain ⟨l, hinv⟩ := registry_inv hrun
  refine ⟨l, hinv.holds, hinv.holds.nodup, hinv.exact, fun t hfreed hmem => ?_,
    fun t fuel hfuel => ?_⟩
  · obtain ⟨q, hq⟩ := hinv.holds.allocated hmem
    rw [hinv.freed t hfreed] at hq
    cases hq
  · obtain ⟨r, hr, hholds, -⟩ := registryRemove_holds hinv.holds t hfuel
    refine ⟨r, hr, hholds, fun hnot => ?_⟩
    rw [registryRemove_absent hinv.holds (mt (hinv.exact t).mp hnot) hfuel, Option.some.injEq] at hr
    exact hr.symm

/-- No call is stuck in the registry: what its record has come to allows its step. -/
theorem registry_enabled {es : List RegistryEv} {s : Registry} (hrun : RegistryRun es s)
    (t : Handle) :
    (s.stage t = .creating → ∃ s', RegistryStep s (.create t) s') ∧
    (s.stage t = .created ∨ s.stage t = .destroying → ∃ s', RegistryStep s (.detach t) s') ∧
    (s.stage t = .created → ∃ s', RegistryStep s (.destroy t) s') := by
  obtain ⟨l, hinv⟩ := registry_inv hrun
  obtain ⟨r, hr, -⟩ := registryRemove_holds hinv.holds t (Nat.lt_succ_self _)
  refine ⟨fun hstage => ?_, fun hstage => ⟨_, .detach hstage hr⟩,
    fun hstage => ⟨_, .destroy hstage hr⟩⟩
  obtain ⟨r', hr', -⟩ := registryAdd_holds hinv.holds (hinv.allocated t (by simp [hstage]))
    (hinv.not_mem (by simp [hstage]))
  exact ⟨_, .create hstage hr'⟩

/-- Two threads, the first of which is detached and destroyed. -/
theorem registry_exact_detached : ∃ es s, RegistryRun es s ∧ .detach 1 ∈ es ∧ .free 1 ∈ es ∧
    ∃ l, s.mem.Holds l ∧ l.Nodup ∧ (∀ t, t ∈ l ↔ Current es t) ∧ (∀ t, Freed es t → t ∉ l) ∧
      ∀ t fuel, l.length < fuel → ∃ r, registryRemove fuel s.mem t = some r ∧
        r.Holds (l.erase t) ∧ (¬ Current es t → r = s.mem) := by
  have h₀ : RegistryRun [] Registry.init := Run.start
  have h₁ := h₀.next (.calloc (t := 1) rfl)
  have h₂ := h₁.next (.create (t := 1) rfl rfl)
  have h₃ := h₂.next (.calloc (t := 2) rfl)
  have h₄ := h₃.next (.create (t := 2) rfl rfl)
  have h₅ := h₄.next (@RegistryStep.detach _ 1 4 _ (.inl rfl) rfl)
  have h₆ := h₅.next (@RegistryStep.destroy _ 1 4 _ rfl rfl)
  have h₇ := h₆.next (.free (t := 1) rfl)
  exact ⟨_, _, h₇, by simp, by simp, registry_exact h₇⟩

end Dvm

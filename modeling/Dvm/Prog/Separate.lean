/-
# Separate verification

A source that refers to nothing but itself is a part of every listing that it is linked into, with
its labels moved (`linked_embeds`).  What a routine of it does there is what it does alone: the
machine of the linked listing makes the steps that the machine of the source makes, with the
callers' frames below (`embedded_step`).  So a contract that the routine meets in its own source is
met in every program that the source becomes a part of (`Embeds.meets`, `separate_calls`).
-/
import Dvm.Prog.Contract
import Dvm.Prog.Linked

namespace Dvm

open ByteMem Eventual

/-! ## 1. A listing as a part of another -/

def SymInstr.map {ν μ : Type} (f : ν → μ) : SymInstr ν → SymInstr μ
  | .plain op o straight => .plain op o straight
  | .jump op dest jumps => .jump op (f dest) jumps
  | .call ok err => .call (f ok) (f err)
  | .callr d err => .callr d (f err)
  | .ret => .ret
  | .throw => .throw
  | .addr d label => .addr d (f label)

/-- The instructions of `part` are those of `prog` from instruction `first` on. -/
def Embeds (part prog : List (SymInstr Nat)) (first : Nat) : Prop :=
  ∀ k i, part[k]? = some i → prog[first + k]? = some (i.map (first + ·))

theorem Embeds.length {part prog : List (SymInstr Nat)} {first k : Nat} (h : Embeds part prog first)
    (hk : k < part.length) : first + part.length ≤ prog.length := by
  have hlast := h _ _ (List.getElem?_eq_getElem (by omega : part.length - 1 < part.length))
  have hlt := (List.getElem?_eq_some_iff.mp hlast).1
  omega

/-- Different instructions have different places. -/
def PlacesApart (place : Nat → Word) (n : Nat) : Prop :=
  ∀ i j, i ≤ n → j ≤ n → place i = place j → i = j

theorem instrAt_eq_some_iff {place : Nat → Word} {n k : Nat} {a : Word}
    (h : PlacesApart place n) : instrAt place n a = some k ↔ k ≤ n ∧ place k = a := by
  constructor
  · intro hk
    refine ⟨?_, place_of_instrAt hk⟩
    have hmem := List.mem_of_find?_eq_some hk
    rw [List.mem_range] at hmem
    omega
  · rintro ⟨hk, rfl⟩
    cases hfind : instrAt place n (place k) with
    | none =>
      have hno := List.find?_eq_none.mp hfind k (List.mem_range.mpr (by omega))
      simp at hno
    | some j =>
      have hj := List.mem_of_find?_eq_some hfind
      rw [List.mem_range] at hj
      rw [h j k (by omega) hk (place_of_instrAt hfind)]

/-! ## 2. Steps of the part -/

/-- The next state, if the machine goes on. -/
def ListOutcome.goes : ListOutcome → Option ListConfig
  | .next s m => some (s, m)
  | _ => none

/-- A state of the part, called with the frame `f` only, and a state of the whole, called with `f'`
and the frames `fs`: inside the routine, or back at the caller. -/
inductive Lifted (first : Nat) (f f' : Nat × Nat) (fs : List (Nat × Nat)) :
    ListConfig → ListConfig → Prop
  | inside {s s' : ListState} {m : Mem} {gs : List (Nat × Nat)} :
      s.frames = gs ++ [f] →
      s'.frames = gs.map (fun g => (first + g.1, first + g.2)) ++ f' :: fs →
      s'.pc = first + s.pc → s'.regs = s.regs → Lifted first f f' fs (s, m) (s', m)
  | back {s s' : ListState} {m : Mem} (pick : Nat × Nat → Nat) :
      (pick = Prod.fst ∨ pick = Prod.snd) → s.frames = [] → s'.frames = fs →
      s.pc = pick f → s'.pc = pick f' → s'.regs = s.regs →
      Lifted first f f' fs (s, m) (s', m)

section Steps

variable {part prog : List (SymInstr Nat)} {place : Nat → Word} {first : Nat} {f f' : Nat × Nat}
  {fs : List (Nat × Nat)} {s s' : ListState} {m : Mem}

/-- A call in the part, with room for its frame below the callers'. -/
theorem lifted_enter {gs : List (Nat × Nat)} (hs : s.frames = gs ++ [f])
    (hs' : s'.frames = gs.map (fun g => (first + g.1, first + g.2)) ++ f' :: fs)
    (hpc : s'.pc = first + s.pc) (hregs : s'.regs = s.regs) (dest err : Nat)
    (hroom : s.frames.length + 1 + fs.length ≤ frameDepth) :
    Option.Rel (Lifted first f f' fs) (s.enter dest err m).goes
      (s'.enter (first + dest) (first + err) m).goes := by
  have hlen : s'.frames.length = s.frames.length + fs.length := by
    rw [hs, hs']
    simp only [List.length_append, List.length_map, List.length_cons, List.length_nil]
    omega
  rw [ListState.enter, ListState.enter, dif_pos (by omega), dif_pos (by omega)]
  have hframes : (s.pc, err) :: s.frames = ((s.pc, err) :: gs) ++ [f] :=
    congrArg ((s.pc, err) :: ·) hs
  refine .some (.inside hframes ?_ rfl hregs)
  show (s'.pc, first + err) :: s'.frames = _
  rw [hs', hpc]
  rfl

theorem enter_next {dest err : Nat} {c : ListConfig}
    (h : s.enter dest err m = .next c.1 c.2) : c.1.frames = (s.pc, err) :: s.frames := by
  unfold ListState.enter at h
  split at h
  · rw [← (ListOutcome.next.inj h).1]
  · cases h

/-- A return or throw in the part. -/
theorem lifted_unwind {gs : List (Nat × Nat)} (hs : s.frames = gs ++ [f])
    (hs' : s'.frames = gs.map (fun g => (first + g.1, first + g.2)) ++ f' :: fs)
    (hregs : s'.regs = s.regs) {pick : Nat × Nat → Nat}
    (hpick : pick = Prod.fst ∨ pick = Prod.snd) :
    Option.Rel (Lifted first f f' fs) (s.unwind pick m).goes (s'.unwind pick m).goes := by
  obtain ⟨pc, frames, regs, fits⟩ := s
  obtain ⟨pc', frames', regs', fits'⟩ := s'
  dsimp only at hs hs' hregs
  subst hs hs' hregs
  cases gs with
  | nil => exact .some (.back pick hpick rfl rfl rfl rfl rfl)
  | cons g gs =>
    refine .some (.inside (show _ = gs ++ [f] from rfl) rfl ?_ rfl)
    rcases hpick with rfl | rfl <;> rfl

/-- A step inside the part, made by both machines. -/
theorem embedded_step (hemb : Embeds part prog first) (hapart : PlacesApart place prog.length)
    {gs : List (Nat × Nat)} (hs : s.frames = gs ++ [f])
    (hs' : s'.frames = gs.map (fun g => (first + g.1, first + g.2)) ++ f' :: fs)
    (hpc : s'.pc = first + s.pc) (hregs : s'.regs = s.regs)
    (hgo : ∃ c, ListGo part (fun k => place (first + k)) (s, m) c)
    (hroom : ∀ c, ListGo part (fun k => place (first + k)) (s, m) c →
      c.1.frames.length + fs.length ≤ frameDepth) (sys : SysAnswer) :
    Option.Rel (Lifted first f f' fs) (listStep part (fun k => place (first + k)) sys s m).goes
      (listStep prog place sys s' m).goes := by
  obtain ⟨c, sys₀, hnext⟩ := hgo
  have hbound := hroom c ⟨sys₀, hnext⟩
  cases hi : part[s.pc]? with
  | none =>
    simp only [listStep, hi] at hnext
    cases hnext
  | some i =>
    have hi' : prog[s'.pc]? = some (i.map (first + ·)) := by
      rw [hpc]
      exact hemb _ _ hi
    simp only [listStep, hi] at hnext
    rw [listStep, listStep, hi, hi']
    have hpc' : s'.pc + 1 = first + (s.pc + 1) := by omega
    cases i with
    | plain op o straight =>
      show Option.Rel _ (ListState.after _ (exec sys op o s.regs m)).goes
        (ListState.after _ (exec sys op o s'.regs m)).goes
      rw [hregs]
      cases exec sys op o s.regs m with
      | next t m' => exact .some (.inside hs hs' hpc' rfl)
      | _ => exact .none
    | jump op dest jumps =>
      show Option.Rel _ (some _) (some _)
      show Option.Rel _ (some ((if op.taken s.regs.fl then _ else _), m))
        (some ((if op.taken s'.regs.fl then _ else _), m))
      rw [hregs]
      split
      · exact .some (.inside hs hs' rfl hregs)
      · exact .some (.inside hs hs' hpc' hregs)
    | call ok err =>
      rw [enter_next hnext, List.length_cons] at hbound
      show Option.Rel _ ((s.goto (s.pc + 1)).enter ok err m).goes
        ((s'.goto (s'.pc + 1)).enter (first + ok) (first + err) m).goes
      exact @lifted_enter first f f' fs (s.goto (s.pc + 1)) (s'.goto (s'.pc + 1)) m gs hs hs' hpc'
        hregs ok err hbound
    | callr d err =>
      show Option.Rel _ (listExec _ _ sys (.callr d err) (s.goto (s.pc + 1)) m).goes
        (listExec _ _ sys (.callr d (first + err)) (s'.goto (s'.pc + 1)) m).goes
      simp only [listExec] at hnext ⊢
      cases hk : instrAt (fun k => place (first + k)) part.length
          ((s.goto (s.pc + 1)).regs.gpr d) with
      | none =>
        rw [hk] at hnext
        cases hnext
      | some k =>
        have hle := List.mem_of_find?_eq_some hk
        rw [List.mem_range] at hle
        have hk' : instrAt place prog.length ((s'.goto (s'.pc + 1)).regs.gpr d)
            = some (first + k) := by
          have hlen := hemb.length (List.getElem?_eq_some_iff.mp hi).1
          refine (instrAt_eq_some_iff hapart).mpr ⟨by omega, ?_⟩
          show place (first + k) = s'.regs.gpr d
          have hplace := place_of_instrAt hk
          rw [hregs]
          exact hplace
        rw [hk] at hnext
        rw [hk']
        rw [enter_next hnext, List.length_cons] at hbound
        exact @lifted_enter first f f' fs (s.goto (s.pc + 1)) (s'.goto (s'.pc + 1)) m gs hs hs'
          hpc' hregs k err hbound
    | ret =>
      show Option.Rel _ ((s.goto (s.pc + 1)).unwind Prod.fst m).goes
        ((s'.goto (s'.pc + 1)).unwind Prod.fst m).goes
      exact @lifted_unwind first f f' fs (s.goto (s.pc + 1)) (s'.goto (s'.pc + 1)) m gs hs hs' hregs
        Prod.fst (.inl rfl)
    | throw =>
      show Option.Rel _ ((s.goto (s.pc + 1)).unwind Prod.snd m).goes
        ((s'.goto (s'.pc + 1)).unwind Prod.snd m).goes
      exact @lifted_unwind first f f' fs (s.goto (s.pc + 1)) (s'.goto (s'.pc + 1)) m gs hs hs' hregs
        Prod.snd (.inr rfl)
    | addr d k =>
      refine .some (.inside hs hs' hpc' ?_)
      show s'.regs.setReg d _ = s.regs.setReg d _
      rw [hregs]

end Steps

/-! ## 3. Contracts of the part -/

theorem goes_eq_some_iff {o : ListOutcome} {c : ListConfig} :
    o.goes = some c ↔ o = .next c.1 c.2 := by
  cases o with
  | next s m =>
    rw [ListOutcome.goes, Option.some.injEq, ListOutcome.next.injEq, Prod.ext_iff]
  | _ => exact iff_of_false nofun nofun

section Contracts

variable {part prog : List (SymInstr Nat)} {place : Nat → Word} {first k : Nat} {f' : Nat × Nat}
  {fs : List (Nat × Nat)} {t : VMThread} {m : Mem} {C : Contract}

/-- The frame of a caller that is not in the part: the machine of the part stops there. -/
def outerFrame (part : List (SymInstr Nat)) : Nat × Nat := (part.length, part.length + 1)

theorem stops_outside {s : ListState} {pick : Nat × Nat → Nat}
    (hpick : pick = Prod.fst ∨ pick = Prod.snd) (hpc : s.pc = pick (outerFrame part))
    {c : ListConfig} : ¬ ListGo part place (s, m) c := by
  rintro ⟨sys, hs⟩
  have hle : part.length ≤ s.pc := by
    rw [hpc]
    rcases hpick with rfl | rfl
    · exact Nat.le_refl _
    · exact Nat.le_succ _
  simp only [listStep, List.getElem?_eq_none hle] at hs
  cases hs

/-- What the whole does while the part is inside its routine. -/
theorem lifted_sim (hemb : Embeds part prog first) (hapart : PlacesApart place prog.length)
    (hdepth : fs.length + C.depth ≤ frameDepth) {c c' : ListConfig}
    (hc : Lifted first (outerFrame part) f' fs c c')
    (hgo : ∃ d, ListGo part (fun j => place (first + j)) c d)
    (hnext : ∀ d, ListGo part (fun j => place (first + j)) c d →
      C.Inside t m [] d ∨ C.Left t m (outerFrame part) [] d) :
    (∃ d', ListGo prog place c' d') ∧ ∀ d', ListGo prog place c' d' →
      ∃ d, ListGo part (fun j => place (first + j)) c d ∧
        Lifted first (outerFrame part) f' fs d d' := by
  cases hc with
  | back pick hpick _ _ hpc _ _ =>
    obtain ⟨d, hd⟩ := hgo
    exact absurd hd (stops_outside hpick hpc)
  | @inside s s' m₁ gs hs hs' hpc hregs =>
    have hroom : ∀ d, ListGo part (fun j => place (first + j)) (s, m₁) d →
        d.1.frames.length + fs.length ≤ frameDepth := by
      intro d hd
      rcases hnext d hd with ⟨hlen, -⟩ | ⟨hnil, -⟩
      · rw [List.length_nil] at hlen
        omega
      · rw [hnil, List.length_nil]
        omega
    have hrel := embedded_step hemb hapart hs hs' hpc hregs hgo hroom
    refine ⟨?_, ?_⟩
    · obtain ⟨d, sys, hd⟩ := hgo
      have hsome := hrel sys
      rw [goes_eq_some_iff.mpr hd] at hsome
      cases hgoes : (listStep prog place sys s' m₁).goes with
      | none =>
        rw [hgoes] at hsome
        cases hsome
      | some d' => exact ⟨d', sys, goes_eq_some_iff.mp hgoes⟩
    · rintro d' ⟨sys, hd'⟩
      have hsome := hrel sys
      rw [goes_eq_some_iff.mpr hd'] at hsome
      cases hgoes : (listStep part (fun j => place (first + j)) sys s m₁).goes with
      | none =>
        rw [hgoes] at hsome
        cases hsome
      | some d =>
        rw [hgoes] at hsome
        cases hsome with
        | some hlift => exact ⟨d, ⟨sys, goes_eq_some_iff.mp hgoes⟩, hlift⟩

theorem lifted_inside {f : Nat × Nat} {c c' : ListConfig} (hc : Lifted first f f' fs c c')
    (h : C.Inside t m [] c) : C.Inside t m fs c' := by
  obtain ⟨hlen, hkeeps⟩ := h
  cases hc with
  | inside hs hs' _ _ =>
    refine ⟨?_, hkeeps⟩
    simp only [hs, hs', List.length_append, List.length_map, List.length_cons,
      List.length_nil] at hlen ⊢
    omega
  | back _ _ _ hs' _ _ _ =>
    refine ⟨?_, hkeeps⟩
    simp only [hs']
    omega

theorem lifted_left {c c' : ListConfig} (hc : Lifted first (outerFrame part) f' fs c c')
    (h : C.Left t m (outerFrame part) [] c) : C.Left t m f' fs c' := by
  obtain ⟨hnil, hkeeps, hout⟩ := h
  cases hc with
  | inside hs _ _ _ =>
    have hcons := hs.symm.trans hnil
    simp at hcons
  | back pick hpick _ hs' hpc hpc' hregs =>
    refine ⟨hs', hkeeps, ?_⟩
    simp only [hregs, hpc']
    rcases hpick with rfl | rfl
    · rcases hout with ⟨-, hret⟩ | ⟨hsnd, -⟩
      · exact .inl ⟨rfl, hret⟩
      · have heq : part.length = part.length + 1 := hpc.symm.trans hsnd
        omega
    · rcases hout with ⟨hfst, -⟩ | ⟨-, hthrow⟩
      · have heq : part.length + 1 = part.length := hpc.symm.trans hfst
        omega
      · exact .inr ⟨rfl, hthrow⟩

/-- A contract that a routine meets in the part is met in the whole. -/
theorem Embeds.meets (hemb : Embeds part prog first) (hapart : PlacesApart place prog.length)
    (hC : Meets part (fun j => place (first + j)) k C) : Meets prog place (first + k) C := by
  intro f' fs t m fits hdepth hreq
  have hone : [outerFrame part].length ≤ frameDepth := by
    rw [List.length_cons] at fits
    rw [List.length_cons, List.length_nil]
    omega
  have hrun := hC (outerFrame part) [] t m hone (by rw [List.length_nil]; omega) hreq
  have hstart : Lifted first (outerFrame part) f' fs
      ((⟨k, [outerFrame part], t, hone⟩ : ListState), m)
      ((⟨first + k, f' :: fs, t, fits⟩ : ListState), m) :=
    .inside (show _ = [] ++ [outerFrame part] from rfl) rfl rfl rfl
  refine (Until.sim (R := Lifted first (outerFrame part) f' fs) ?_ hrun hstart).mono ?_ ?_
  · intro c c' hc _ hgo hnext
    exact lifted_sim hemb hapart hdepth hc hgo hnext
  · rintro c' ⟨c, hc, hin⟩
    exact lifted_inside hc hin
  · rintro c' ⟨c, hc, hleft⟩
    exact lifted_left hc hleft

end Contracts

/-! ## 4. A source in a linked listing -/

/-- A target with the instructions numbered from `first` on. -/
def Target.moved (first : Nat) : Target → Target
  | .code k => .code (first + k)
  | .data w => .data w

section Moved

variable {names names' : CStr → Option Target} {first : Nat}

theorem codeTarget_moved (h : ∀ name t, names name = some t → names' name = some (t.moved first))
    {name : CStr} {k : Nat} (hk : codeTarget names name = some k) :
    codeTarget names' name = some (first + k) := by
  rw [codeTarget, h name _ (codeTarget_eq_some hk)]
  rfl

/-- A line that resolves resolves to the same instruction moved, if its names do. -/
theorem resolveInstr_moved
    (h : ∀ name t, names name = some t → names' name = some (t.moved first))
    {i : SymInstr CStr} {j : SymInstr Nat} (hj : resolveInstr names i = some j) :
    resolveInstr names' i = some (j.map (first + ·)) := by
  cases i with
  | plain op o straight =>
    obtain rfl := Option.some.inj hj
    rfl
  | jump op dest jumps =>
    obtain ⟨k, hk, rfl⟩ := Option.map_eq_some_iff.mp hj
    rw [resolveInstr, codeTarget_moved h hk]
    rfl
  | call ok err =>
    obtain ⟨k, hk, hj⟩ := Option.bind_eq_some_iff.mp hj
    obtain ⟨l, hl, rfl⟩ := Option.map_eq_some_iff.mp hj
    rw [resolveInstr, codeTarget_moved h hk, codeTarget_moved h hl]
    rfl
  | callr d err =>
    obtain ⟨k, hk, rfl⟩ := Option.map_eq_some_iff.mp hj
    rw [resolveInstr, codeTarget_moved h hk]
    rfl
  | ret =>
    obtain rfl := Option.some.inj hj
    rfl
  | throw =>
    obtain rfl := Option.some.inj hj
    rfl
  | addr d label =>
    obtain ⟨t, ht, rfl⟩ := Option.map_eq_some_iff.mp hj
    rw [resolveInstr, h label t ht]
    cases t <;> rfl

theorem resolveLine_moved
    (h : ∀ name t, names name = some t → names' name = some (t.moved first)) {es : List Emit}
    {j : SymInstr Nat} (hj : resolveLine names es = some j) :
    resolveLine names' es = some (j.map (first + ·)) := by
  obtain ⟨i, hi, hj⟩ := Option.bind_eq_some_iff.mp hj
  rw [resolveLine, hi]
  exact resolveInstr_moved h hj

end Moved

/-- The elements of a list that is made by `mapM`. -/
theorem getElem?_of_mapM {α β : Type} {f : α → Option β} {xs : List α} {ys : List β}
    (h : xs.mapM f = some ys) (k : Nat) : ys[k]? = xs[k]?.bind f := by
  have hall := forall₂_of_mapM h
  clear h
  induction hall generalizing k with
  | nil => rfl
  | cons hxy _ ih =>
    cases k with
    | zero => exact hxy.symm
    | succ k => exact ih k

section Linking

variable {us : List Assembly} {maps : LoadMaps} {i : Nat} {u : Assembly}
  {own prog : List (SymInstr Nat)}

/-- Where source `i` finds its data when all are linked. -/
def ownMaps (us : List Assembly) (maps : LoadMaps) (i : Nat) : LoadMaps where
  cnst := sectionAddr us maps i dvmSecCnst
  data := sectionAddr us maps i dvmSecData
  code := maps.code

/-- A name that a source defines leads to the same place in the linked program. -/
theorem linkTarget_moved (hi : us[i]? = some u) {name : CStr} {t : Target}
    (ht : nameTarget 0 (ownMaps us maps i).addr u.stmts name = some t) :
    linkTarget us maps i name = some (t.moved (firstInstr us i)) := by
  have hdef : definedIn us maps i name = some (t.moved (firstInstr us i)) := by
    rw [nameTarget, Option.map_eq_some_iff] at ht
    obtain ⟨⟨sec, before⟩, hd, rfl⟩ := ht
    rw [definedIn, hi, Option.bind_some, nameTarget, hd, Option.map_some]
    obtain ⟨x, after, hxs, -, rfl, -⟩ := firstDef_eq_some hd
    have hx := (sourceLines_readIn u.env u.src x (by
      rw [show (sourceLines u.env u.src).flatten = _ from hxs]
      simp)).1
    rcases hx with hx | hx | hx
    · rw [hx]
      rfl
    · rw [hx]
      rfl
    · rw [hx]
      show some (Target.code _) = some (Target.code (_ + (0 + _)))
      rw [Nat.zero_add]
  rw [linkTarget, hdef]
  rfl

/-- The listing of a source that refers to nothing but itself, in the linked listing. -/
theorem linked_embeds (hi : us[i]? = some u)
    (hown : sourceListing (ownMaps us maps i) u.env u.src = some own)
    (hlist : linkedListing us maps = some prog) : Embeds own prog (firstInstr us i) := by
  intro k j hj
  rw [getElem?_of_mapM hown, Option.bind_eq_some_iff] at hj
  obtain ⟨c, hc, hres⟩ := hj
  rw [getElem?_of_mapM hlist, linked_of_line hi hc]
  exact resolveLine_moved (fun name t => linkTarget_moved hi) hres

end Linking

/-! ## 5. Places -/

theorem listStart_lt_succ {prog : List (SymInstr Nat)} {k : Nat} (hk : k < prog.length) :
    listStart prog k < listStart prog (k + 1) := by
  rw [listStart_succ (List.getElem?_eq_getElem hk), Op.size]
  omega

theorem listStart_lt_of_lt {prog : List (SymInstr Nat)} {i j : Nat} (hij : i < j)
    (hj : j ≤ prog.length) : listStart prog i < listStart prog j := by
  induction j with
  | zero => omega
  | succ j ih =>
    have hstep := listStart_lt_succ (k := j) hj
    rcases Nat.lt_succ_iff_lt_or_eq.mp hij with hlt | rfl
    · have hbefore := ih hlt (by omega)
      omega
    · exact hstep

/-- The instructions of a listing that fits into memory have different addresses. -/
theorem LaidOut.placesApart {a : Word} {prog : List (SymInstr Nat)} {text : List Byte}
    (h : LaidOut a prog text) : PlacesApart (instrPlace a prog) prog.length := by
  intro i j hi hj heq
  have hfits := h.fits
  have hi' := listStart_le prog i
  have hj' := listStart_le prog j
  rw [h.length] at hi' hj'
  rw [instrPlace, instrPlace, BitVec.add_right_inj] at heq
  have hnat := congrArg BitVec.toNat heq
  rw [BitVec.toNat_ofNat, BitVec.toNat_ofNat, Nat.mod_eq_of_lt (by omega),
    Nat.mod_eq_of_lt (by omega)] at hnat
  rcases Nat.lt_trichotomy i j with hlt | rfl | hlt
  · have hstart := listStart_lt_of_lt hlt hj
    omega
  · rfl
  · have hstart := listStart_lt_of_lt hlt hi
    omega

/-! ## 6. The result -/

/-- A routine verified in its own source is correct in every program that is linked of it: where
the listing of the source alone, placed as the link places it, meets a contract, each `CALL` of the
routine by name in the linked and loaded program, from whichever source, returns or throws as the
contract says. -/
theorem separate_calls {us : List Assembly} {maps : LoadMaps} {own prog : List (SymInstr Nat)}
    {m m' m₁ : Mem} {ld : DvmLoaded} {entrySym : Option CStr} {out : DvmProg} {i k err : Nat}
    {u : Assembly} {C : Contract} {s : ListState}
    (hlink : dvmLink (objects us) entrySym = .ok out) (hfits : SizesFit out)
    (hkept : RefsKept us out) (hlist : linkedListing us maps = some prog)
    (hload : dvmLoad maps m out = .ok (ld, m')) (hi : us[i]? = some u)
    (hown : sourceListing (ownMaps us maps i) u.env u.src = some own)
    (hC : Meets own (fun j => instrPlace maps.code prog (firstInstr us i + j)) k C)
    (hpos : 0 < C.depth) (hcall : prog[s.pc]? = some (.call (firstInstr us i + k) err))
    (hroom : s.frames.length + C.depth ≤ frameDepth) (hreq : C.requires s.regs m₁)
    (ht : TextAt maps.code (readBytes m' maps.code out.code.length) m₁)
    (hkeeps : ∀ m₂, C.keeps s.regs m₁ m₂ →
      TextAt maps.code (readBytes m' maps.code out.code.length) m₂) :
    Until VmGo (fun v => TextAt maps.code (readBytes m' maps.code out.code.length) v.2)
      (fun v => ∃ c, v = (c.1.conc (instrPlace maps.code prog), c.2) ∧
        C.Left s.regs m₁ (s.pc + 1, err) s.frames c)
      (s.conc (instrPlace maps.code prog), m₁) := by
  have hlaid := linked_laidOut hlink hfits hkept hlist hload
  have hmeets := (linked_embeds hi hown hlist).meets hlaid.placesApart hC
  exact hlaid.calls hmeets hpos hcall hroom hreq ht hkeeps

/-- `compute` of `test/asm/entry_lib.asm`: `ax` becomes its square and one; `bx` is used. -/
def computeContract : Contract where
  depth := 1
  requires _ _ := True
  keeps _ m m' := m' = m
  returns t _ t' _ := t'.gpr regAx = t.gpr regAx * t.gpr regAx + 1 ∧
    (∀ r, r ≠ regAx → r ≠ regBx → t'.gpr r = t.gpr r) ∧ t' = t.withRegs t'.gpr t.fl t.sp
  throws _ _ _ _ := False

/-- The library, by itself, meets it. -/
theorem compute_meets : ∃ own,
    sourceListing (ownMaps entrySources sampleMaps 1) zeroEnv entryLibAsm = some own ∧
      ∀ place, Meets own place 0 computeContract := by
  refine ⟨[.plain .movRR { d := regBx, s := regAx } rfl, .plain .mul { d := regAx, s := regBx } rfl,
    .plain .movRI { d := regBx, imm := 1 } rfl, .plain .add { d := regAx, s := regBx } rfl, .ret],
    by decide +kernel, ?_⟩
  intro place f fs t m fits _ _
  have hin : ∀ s : ListState, s.frames = f :: fs →
      computeContract.Inside t m fs (s, m) := by
    intro s hs
    refine ⟨?_, rfl⟩
    rw [hs]
    exact Nat.le_refl _
  show Until _ _ _ ((⟨0, f :: fs, t.withRegs t.gpr t.fl t.sp, fits⟩ : ListState), m)
  refine until_plain rfl (fun _ => exec_movRR rfl) (hin _ rfl) ?_
  refine until_plain rfl (fun _ => exec_mul rfl) (hin _ rfl) ?_
  refine until_plain rfl (fun _ => exec_movRI) (hin _ rfl) ?_
  refine until_plain rfl (fun _ => exec_add rfl) (hin _ rfl) ?_
  refine until_leave rfl (.inl ⟨rfl, rfl⟩) (hin _ rfl)
    (.here ⟨rfl, rfl, .inl ⟨rfl, rfl, fun r hax hbx => ?_, rfl⟩⟩)
  simp only [VMThread.withRegs, regSet_apply, if_neg hax, if_neg hbx]

/-- The call of `test/asm/entry_main.asm`, behind `mov ax, 6`. -/
def computeCall (t : VMThread) : ListState := ⟨1, [], t.setReg regAx 6, Nat.zero_le _⟩

theorem entrySources_calls : ∃ out prog ld m' t, dvmLink (objects entrySources) none = .ok out ∧
    linkedListing entrySources sampleMaps = some prog ∧
    dvmLoad sampleMaps (fun _ => 0) out = .ok (ld, m') ∧ cmdRun 0x8000 ld = some t ∧
    Until VmGo (fun v => TextAt sampleMaps.code
        (readBytes m' sampleMaps.code out.code.length) v.2)
      (fun v => v.1.gpr regAx = 37)
      ((computeCall t).conc (instrPlace sampleMaps.code prog), m') := by
  obtain ⟨out, hlink, hfits, -, ld, m', hload⟩ := entrySources_linked
  obtain ⟨prog, hlist, hcall⟩ : ∃ prog, linkedListing entrySources sampleMaps = some prog ∧
      prog[1]? = some (.call (firstInstr entrySources 1 + 0) 5) := by
    have hmap : (linkedListing entrySources sampleMaps).map (fun prog => prog[1]?)
        = some (some (.call (firstInstr entrySources 1 + 0) 5)) := by decide +kernel
    exact Option.map_eq_some_iff.mp hmap
  obtain ⟨t, hrun⟩ := exists_cmdRun 0x8000 hload
  obtain ⟨own, hown, hmeets⟩ := compute_meets
  have htext := textAt_readBytes m' sampleMaps.code out.code.length
  have hlib : entrySources[1]? = some (Assembly.of zeroEnv entryLibAsm entryLibAsm_accepted) := rfl
  have hcalls := separate_calls (s := computeCall t) hlink hfits (entrySources_kept hlink) hlist
    hload hlib hown (hmeets _) Nat.one_pos hcall (show 0 + 1 ≤ frameDepth by decide) trivial htext
    (fun m₂ hm => hm ▸ htext)
  refine ⟨out, prog, ld, m', t, hlink, hlist, hload, hrun, hcalls.mono (fun _ h => h) ?_⟩
  rintro _ ⟨c, rfl, -, -, ⟨-, hax, -⟩ | ⟨-, hthrow⟩⟩
  · exact hax
  · exact hthrow.elim

end Dvm

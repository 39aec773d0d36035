import StackCode.Proofs.AddressSafety

/-!
# Frames that rest

While a stretch of code is run in one frame, calls open other frames above it. The frame rests until
they are gone. What it then finds on its stack is what the calls give, and everything else of it is
as it was. Only the methods that are called meanwhile have to be of a kind that something is known
of; the program may have others.
-/

namespace StackCode

open List State

variable {p q : Program} {s t : State} {us : List Value} {Q : Method → Prop} {resume : Resume}

/-! ### Steps that go on -/

namespace Exec

variable {f : Frame} {rest : List Frame} {i : Instr} {vs : List Value}

/-- A step goes on if an instruction is fetched. -/
theorem exists_fetch {progress : Progress} (h : step.exec p s = (.ok progress, t)) : ∃ f rest i,
    s.frames = f :: rest ∧ f.method.fetch? f.offset = some i := by
  have hyields : Yields p s step (fun _ _ => ∃ f rest i, s.frames = f :: rest ∧
      f.method.fetch? f.offset = some i) fun _ _ => True := by
    cases hf : s.frames with
    | nil =>
      obtain ⟨frames, heap, statics, captured⟩ := s
      subst hf
      exact yields_of_error rfl trivial
    | cons f rest =>
      cases hi : f.method.fetch? f.offset with
      | none => exact yields_step_of_none hf hi trivial
      | some i => exact ⟨fun _ _ _ => ⟨f, rest, i, rfl, hi⟩, fun _ _ _ => trivial⟩
  exact hyields.ok _ _ h

/-- A step that is no return goes on if its operands are there and its action can be performed. -/
theorem step_iff_perform (hf : s.frames = f :: rest) (hi : f.method.fetch? f.offset = some i)
    (hret : i.op ≠ .ret) (hretVoid : i.op ≠ .retVoid) (hstack : f.stack = us ++ vs)
    (hus : us.length = i.pops) : step.exec p s = (.ok .running, t) ↔
      ∃ a, i.action p f.method s.heap rest.length us = .ok a ∧
        a.perform.exec p (s.moved vs i.next) = (.ok (), t) := by
  have hagrees := agrees_step (p := p) hf hi hret hretVoid hstack hus
  have hact : (act (i.action p f.method s.heap rest.length us) >>= fun _ =>
      pure Progress.running).exec p (s.moved vs i.next) = (.ok .running, t) ↔
        ∃ a, i.action p f.method s.heap rest.length us = .ok a ∧
          a.perform.exec p (s.moved vs i.next) = (.ok (), t) := by
    rw [exec_bind, act, exec_bind, exec_ofExcept]
    cases i.action p f.method s.heap rest.length us with
    | error e => simp
    | ok a =>
      rcases hperf : a.perform.exec p (s.moved vs i.next) with ⟨e | ⟨⟩, u⟩
      · simp [hperf]
      · simp [hperf, exec_pure]
  rw [← hact]
  rcases hstep : step.exec p s with ⟨e | x, u⟩ <;>
    rcases hout : (act (i.action p f.method s.heap rest.length us) >>= fun _ =>
      pure Progress.running).exec p (s.moved vs i.next) with ⟨e' | x', u'⟩ <;>
        rw [hstep, hout] at hagrees
  · simp
  · cases hagrees
  · cases hagrees
  · obtain ⟨rfl, rfl⟩ := hagrees
    rfl

theorem exists_operands (h : step.exec p s = (.ok .running, t)) (hf : s.frames = f :: rest)
    (hi : f.method.fetch? f.offset = some i) (hret : i.op ≠ .ret) (hretVoid : i.op ≠ .retVoid) :
    ∃ us vs, f.stack = us ++ vs ∧ us.length = i.pops := by
  by_contra hnone
  have hfew : f.stack.length < i.pops := by
    by_contra hmany
    exact hnone ⟨f.stack.take i.pops, f.stack.drop i.pops, (take_append_drop _ _).symm,
      by rw [length_take]; omega⟩
  have hyields : Yields p s step (fun _ _ => False) fun _ _ => True :=
    yields_step_of_few hf hi (fun _ _ _ _ _ => trivial) hret hretVoid hfew fun _ => trivial
  exact hyields.ok _ _ h

end Exec

/-! ### Parts of a program -/

/-- A program with the same declarations, which has those methods of another program that are of a
kind. -/
structure Program.Part (Q : Method → Prop) (q p : Program) : Prop where
  registry : q.registry = p.registry
  natives : q.natives = p.natives
  maxDepth : q.maxDepth = p.maxDepth
  methods : ∀ (h : TypeHash) m, p.methods[h]? = some m → Q m → q.methods[h]? = some m

/-- A computation that goes the same way in two programs. -/
def Exec.Same (q p : Program) {α : Type} (x : Exec α) : Prop := ∀ s, x.exec q s = x.exec p s

theorem Exec.Same.bind {α β : Type} {x : Exec α} {f : α → Exec β} (hx : Same q p x)
    (hf : ∀ a, Same q p (f a)) : Same q p (x >>= f) := by
  intro s
  rw [exec_bind, exec_bind, hx s]
  split
  · exact hf _ _
  · rfl

theorem Exec.same_ofExcept (q p : Program) {α : Type} (x : Except Fault α) :
    Same q p (MonadExcept.ofExcept x : Exec α) := by
  intro s
  rw [exec_ofExcept, exec_ofExcept]

theorem Exec.same_checkWidth (q p : Program) (accepted : String × Bool) (v : Value) :
    Same q p (checkWidth accepted v) := by
  intro s
  unfold checkWidth
  split <;> rfl

theorem Exec.same_pushResult (q p : Program) (v : Value) : Same q p (pushResult v) := by
  intro s
  unfold pushResult
  split <;> rfl

theorem Exec.same_leave (q p : Program) (v : Value) : Same q p (leave v) := by
  refine Same.bind (fun s => ?_) fun f => Same.bind (fun s => rfl) fun _ => ?_
  · obtain ⟨_ | ⟨f, rest⟩, heap, statics, captured⟩ := s <;> rfl
  · cases f.resume with
    | host => exact fun s => rfl
    | caller => exact (same_pushResult q p v).bind fun _ s => rfl
    | built w => exact fun s => rfl
    | cell id =>
      refine Same.bind (fun s => ?_) fun o s => rfl
      rw [exec_object, exec_object]

namespace Program.Part

open Exec

variable (hpart : q.Part Q p)
include hpart

theorem action_eq (m : Method) (i : Instr) (heap : Heap) (level : Nat) (us : List Value) :
    i.action q m heap level us = i.action p m heap level us := by
  unfold Instr.action Program.callAction Program.constructAction
  rw [hpart.registry, hpart.natives]

theorem same_fetch (a : Address) : Same q p (fetch a) := by
  intro s
  rw [exec_fetch, exec_fetch, hpart.registry]

theorem same_store (a : Address) (v : Value) : Same q p (store a v) := by
  refine Same.bind (fun s => ?_) fun old => (same_ofExcept q p _).bind fun new s => rfl
  rw [exec_readRoot, exec_readRoot, hpart.registry]

section Enter

variable (hQ : ∀ f rest, t.frames = f :: rest → s.depth < t.depth → Q f.method)
include hQ

theorem enter {function : TypeHash} {args : List Value} {heap : Heap}
    (h : (enter function args resume).exec p { s with heap } = (.ok (), t)) :
    (Exec.enter function args resume).exec q { s with heap } = (.ok (), t) := by
  cases hm : p.methods[function]? with
  | none =>
    rw [exec_enter_none hm] at h
    cases h
  | some m =>
    rw [exec_enter_some hm] at h
    split at h
    · cases h
    · rename_i harity
      split at h
      · cases h
      · rename_i hdepth
        cases h
        have hm' := hpart.methods function m hm (hQ _ _ rfl (by simp [depth]))
        rw [exec_enter_some hm', if_neg harity, hpart.maxDepth, if_neg hdepth, Program.frame,
          Program.frame, hpart.registry]

/-- An action that begins at most a call of a method of the kind. -/
theorem perform {a : Action} (h : a.perform.exec p s = (.ok (), t)) :
    a.perform.exec q s = (.ok (), t) := by
  have hsame : Same q p a.perform → a.perform.exec q s = (.ok (), t) :=
    fun hsame => (hsame s).trans h
  cases a with
  | push | alloc | goto => exact h
  | native f args constructs =>
    refine hsame (Same.bind (fun s => ?_) fun v s => ?_)
    · rw [exec_callNative, exec_callNative]
    · cases constructs with
      | true => rfl
      | false => exact same_pushResult q p v s
  | get root => exact hsame ((hpart.same_fetch _).bind fun v s => rfl)
  | set | store => exact hsame (hpart.same_store _ _)
  | load place accepts =>
    exact hsame ((hpart.same_fetch _).bind fun v => (same_checkWidth q p _ v).bind fun _ s => rfl)
  | copy source target =>
    exact hsame ((hpart.same_fetch _).bind fun v =>
      (same_checkWidth q p _ v).bind fun _ => hpart.same_store _ _)
  | enter function args =>
    have h : (Exec.enter function args .caller).exec p { s with heap := s.heap } = (.ok (), t) := h
    exact hpart.enter hQ h
  | construct owner function args =>
    have h : (constructOn owner function args).exec p s = (.ok (), t) := h
    show (constructOn owner function args).exec q s = (.ok (), t)
    have hkind : q.registry.kind? owner = p.registry.kind? owner := by rw [hpart.registry]
    by_cases href : p.registry.kind? owner = some .reference
    · rw [exec_constructOn_ref href] at h
      rw [exec_constructOn_ref (hkind.trans href), hpart.registry]
      exact hpart.enter hQ h
    · rw [exec_constructOn_cell href] at h
      rw [exec_constructOn_cell (hkind ▸ href), hpart.registry]
      exact hpart.enter hQ h

/-- A step that begins at most a call of a method of the kind. -/
theorem step (h : step.exec p s = (.ok .running, t)) : Exec.step.exec q s = (.ok .running, t) := by
  obtain ⟨f, rest, i, hf, hi⟩ := exists_fetch h
  by_cases hret : i.op = .ret
  · cases hstack : f.stack with
    | nil =>
      have hyields : Yields p s Exec.step (fun _ _ => False) fun _ _ => True :=
        yields_step_of_ret_nil hf hi hret hstack trivial
      exact (hyields.ok _ _ h).elim
    | cons v vs =>
      rw [exec_step_of_ret hf hi hret hstack] at h ⊢
      exact (same_leave q p v _).trans h
  by_cases hretVoid : i.op = .retVoid
  · rw [exec_step_of_retVoid hf hi hretVoid] at h ⊢
    exact (same_leave q p .void _).trans h
  obtain ⟨us, vs, hstack, hus⟩ := exists_operands h hf hi hret hretVoid
  obtain ⟨a, ha, hperf⟩ := (step_iff_perform hf hi hret hretVoid hstack hus).mp h
  refine (step_iff_perform hf hi hret hretVoid hstack hus).mpr ⟨a, hpart.action_eq .. ▸ ha, ?_⟩
  refine hpart.perform (fun g below hg hdeeper => hQ g below hg ?_) hperf
  rwa [s.moved_eq hf, depth, length_cons, ← length_cons (a := f), ← hf] at hdeeper

end Enter

end Program.Part

/-! ### Runs to an offset -/

/-- The frame with a number is the innermost one and stands at an offset. -/
def State.Stands (n o : Nat) (s : State) : Prop :=
  ∃ f rest, s.frames = f :: rest ∧ rest.length = n ∧ f.offset = o

namespace Exec

/-- A step before the frame with a number comes to an offset. Frames further in run methods of a
kind. -/
structure Onward (p : Program) (Q : Method → Prop) (n e : Nat) (s t : State) : Prop where
  before : ¬s.Stands n e
  step : step.exec p s = (.ok .running, t)
  calls : ∀ k f, n < k → t.frame? k = some f → Q f.method

/-- The machine runs until the frame with a number is the innermost one and stands at an offset, for
the first time. Meanwhile frames further in run methods of a kind. -/
structure Crosses (p : Program) (Q : Method → Prop) (n e : Nat) (s t : State) : Prop where
  run : Relation.ReflTransGen (Onward p Q n e) s t
  stands : t.Stands n e

/-- Every run to the offset comes by a state of which something is known. -/
def Via (p : Program) (Q : Method → Prop) (n e : Nat) (s : State) (R : State → Prop) : Prop :=
  ∀ t, Crosses p Q n e s t → ∃ u, R u ∧ Crosses p Q n e u t

variable {n e : Nat} {R R' : State → Prop}

theorem Crosses.head (h : Crosses p Q n e s t) (hs : ¬s.Stands n e) :
    ∃ u, Onward p Q n e s u ∧ Crosses p Q n e u t := by
  rcases h.run.cases_head with rfl | ⟨u, hstep, hrest⟩
  · exact absurd h.stands hs
  · exact ⟨u, hstep, hrest, h.stands⟩

theorem Crosses.eq (h : Crosses p Q n e s t) (hs : s.Stands n e) : s = t := by
  rcases h.run.cases_head with rfl | ⟨u, hstep, -⟩
  · rfl
  · exact absurd hs hstep.before

theorem Via.here (h : R s) : Via p Q n e s R := fun _ ht => ⟨s, h, ht⟩

theorem Via.trans (h : Via p Q n e s R) (h' : ∀ u, R u → Via p Q n e u R') : Via p Q n e s R' := by
  intro t ht
  obtain ⟨u, hu, hut⟩ := h t ht
  exact h' u hu t hut

theorem Via.mono (h : Via p Q n e s R) (hR : ∀ u, R u → R' u) : Via p Q n e s R' :=
  h.trans fun u hu => .here (hR u hu)

theorem via_step (hs : ¬s.Stands n e) (h : ∀ t, Onward p Q n e s t → R t) : Via p Q n e s R := by
  intro t ht
  obtain ⟨u, hu, hut⟩ := ht.head hs
  exact ⟨u, h u hu, hut⟩

/-- A part of the program that has all methods of the kind takes the same step. -/
theorem Onward.part (h : Onward p Q n e s t) (hpart : q.Part Q p) (hdepth : n < s.depth) :
    Exec.step.exec q s = (.ok .running, t) := by
  refine hpart.step (fun f rest hf hdeeper => h.calls rest.length f ?_ ?_) h.step
  · rw [depth, depth, hf, length_cons] at hdeeper
    rw [depth] at hdepth
    omega
  · obtain ⟨frames, heap, statics, captured⟩ := t
    subst hf
    exact (frame?_cons ⟨rest, heap, statics, captured⟩ f rest.length).trans (if_pos rfl)

end Exec

/-! ### Frames that rest while others run -/

namespace Meaning

open Exec

variable {κ : Type}

/-- The innermost frame has an outline and is above others, and cells hold what they may hold. -/
structure Rests (S : Meaning κ) (o : Outline) (below : List Outline) (s : State) : Prop where
  outlines : s.outlines = o :: below
  stores : S.Stores s

variable {S : Meaning κ} {n e : Nat} {o : Outline} {below : List Outline} {ground : Ground κ}
  {ks : List κ} {H : Holdings}

theorem Rests.exists_frame (h : S.Rests o below s) :
    ∃ f rest, s.frames = f :: rest ∧ f.outline = o ∧
    rest.map Frame.outline = below ∧ rest.length = below.length := by
  obtain ⟨f, rest, hf, ho, hbelow⟩ := map_eq_cons_iff.mp h.outlines
  exact ⟨f, rest, hf, ho, hbelow, by rw [← hbelow, length_map]⟩

theorem Rests.stands_iff (h : S.Rests o below s) : s.Stands below.length e ↔ o.offset = e := by
  obtain ⟨f, rest, hf, rfl, -, hlen⟩ := h.exists_frame
  constructor
  · rintro ⟨f', rest', hf', -, hoff⟩
    cases hf.symm.trans hf'
    exact hoff
  · exact fun hoff => ⟨f, rest, hf, hlen, hoff⟩

theorem Rests.depth (h : S.Rests o below s) : s.depth = below.length + 1 := by
  obtain ⟨f, rest, hf, -, -, hlen⟩ := h.exists_frame
  rw [State.depth, hf, length_cons, hlen]

theorem Stacked.depth_le {σ : List Outline} (h : S.Stacked p ground H ks σ) :
    ground.depth ≤ σ.length := by
  induction h with
  | host _ _ _ _ hground => rw [hground]; exact Nat.zero_le _
  | resting hground => rw [hground]; exact Nat.le_refl _
  | called _ _ _ _ _ ih => exact Nat.le_succ_of_le ih

/-- If no other frame is left, the frame that rests has what it waits for. -/
theorem Expects.rests {entries : List κ} (h : S.Expects p (.resting o below entries) [] s)
    (hdepth : s.depth = below.length + 1) :
    ∃ ws, S.Rests { o with stack := ws ++ o.stack } below s ∧
      Forall₂ (S.Means (s.world S.holdings)) entries ws := by
  have hlen : s.outlines.length = s.depth := length_map _
  have hworld := worldOf_outlines S s
  have hstacked := h.stacked
  generalize hσ : s.outlines = σ at hstacked hlen hworld
  cases hstacked with
  | host _ _ _ _ hground => cases hground
  | resting hground hents hframe hstack =>
    cases hground
    cases hents
    exact ⟨_, ⟨hframe ▸ hσ, h.stores⟩, hworld ▸ hstack⟩
  | called _ _ _ _ hrest =>
    have hle := hrest.depth_le
    rw [Ground.depth] at hle
    rw [length_cons] at hlen
    omega

variable {m : Method} {i : Instr} {σ : List Value} {offset : Nat}

section Step

variable (hs : S.Rests ⟨m, us ++ σ, offset, resume⟩ below s) (hend : offset ≠ e)
  (hi : m.fetch? offset = some i) (hret : i.op ≠ .ret) (hretVoid : i.op ≠ .retVoid)
  (hus : us.length = i.pops)
include hs hend hi hret hretVoid hus

/-- The next step is the action of an instruction. -/
theorem Rests.via_perform : Via p Q below.length e s fun u => ∃ a,
    i.action p m s.heap below.length us = .ok a ∧
    a.perform.exec p (s.moved σ i.next) = (.ok (), u) := by
  obtain ⟨f, rest, hf, hout, -, hlen⟩ := hs.exists_frame
  obtain ⟨method, args, locals, stack, offset, resume⟩ := f
  cases hout
  refine via_step (mt hs.stands_iff.mp hend) fun t ht => ?_
  rw [← hlen]
  exact (step_iff_perform hf hi hret hretVoid rfl hus).mp ht.step

omit hend hi hret hretVoid hus in
theorem Rests.pushed (vs : List Value) (n : Nat) :
    S.Rests ⟨m, vs ++ σ, n, resume⟩ below ((s.moved σ n).pushed vs) := by
  obtain ⟨f, rest, hf, hout, hbelow, -⟩ := hs.exists_frame
  obtain ⟨method, args, locals, stack, offset, resume⟩ := f
  cases hout
  refine ⟨?_, (hs.stores.moved σ n).pushed vs⟩
  rw [s.moved_eq hf, outlines_pushed rfl, hbelow]

theorem Rests.via_pushes {R : Value → Prop}
    (ha : ∀ a, i.action p m s.heap below.length us = .ok a → ∃ v, a = .push [v] ∧ R v) :
    Via p Q below.length e s fun u => ∃ v, S.Rests ⟨m, v :: σ, i.next, resume⟩ below u ∧ R v := by
  refine (hs.via_perform hend hi hret hretVoid hus).mono fun u hu => ?_
  obtain ⟨a, haction, hperf⟩ := hu
  obtain ⟨v, rfl, hv⟩ := ha a haction
  cases hperf
  exact ⟨v, hs.pushed [v] i.next, hv⟩

/-- An instruction that pushes what a slot holds. -/
theorem Rests.via_slot {root : Root} (hroot : ¬root.Lasting)
    (ha : i.action p m s.heap below.length us = .ok (.get root)) :
    Via p Q below.length e s fun u => ∃ v, s.cell? root.cell = some v ∧
      S.Rests ⟨m, v :: σ, i.next, resume⟩ below u := by
  refine (hs.via_perform hend hi hret hretVoid hus).mono fun u hu => ?_
  obtain ⟨a, ha', hperf⟩ := hu
  cases ha.symm.trans ha'
  have hsame : (s.moved σ i.next).materialize p.registry root = s.moved σ i.next := by
    cases root with
    | static => exact absurd rfl hroot
    | _ => rfl
  have hperf : (fetch ⟨root, []⟩ >>= push).exec p (s.moved σ i.next) = (.ok (), u) := hperf
  rw [exec_bind, exec_fetch, hsame] at hperf
  cases hv : (s.moved σ i.next).root p.registry root with
  | error err =>
    rw [hv] at hperf
    cases hperf
  | ok v =>
    rw [hv] at hperf
    cases hperf
    refine ⟨v, ?_, hs.pushed [v] i.next⟩
    rw [← cell?_moved]
    exact cell?_of_root hv

end Step

section Governed

variable (hq : S.Governs q) (hpart : q.Part Q p)
include hq hpart

/-- Frames above the one that rests run until they are gone. -/
theorem Governs.via_rests {entries : List κ} (hs : S.Expects q (.resting o below entries) [] s) :
    Via p Q below.length e s fun u => ∃ ws, S.Rests { o with stack := ws ++ o.stack } below u ∧
      Forall₂ (S.Means (u.world S.holdings)) entries ws := by
  rintro t ⟨hrun, hstands⟩
  have hdepth : t.depth = below.length + 1 := by
    obtain ⟨f, rest, hf, hlen, -⟩ := hstands
    rw [depth, hf, length_cons, hlen]
  -- the run ends in the frame that rests, so on its way the frames above it are gone for a first
  -- time
  induction hrun using Relation.ReflTransGen.head_induction_on with
  | refl =>
    obtain ⟨ws, hrests, hws⟩ := hs.rests hdepth
    exact ⟨t, ⟨ws, hrests, hws⟩, .refl, hstands⟩
  | head hstep hrest ih =>
    rename_i u v
    have hle := hs.stacked.depth_le
    rw [Ground.depth, outlines, length_map] at hle
    by_cases hlow : u.depth = below.length + 1
    · exact ⟨u, hs.rests hlow, .head hstep hrest, hstands⟩
    · have hruns : below.length + 1 < u.depth := Nat.lt_of_le_of_ne hle (Ne.symm hlow)
      have hexec := hstep.part hpart (Nat.lt_of_succ_lt hruns)
      exact ih ((hq.yields_step hs hruns).ok _ _ hexec)

/-- An instruction that is no return, whatever it calls. -/
theorem Governs.via_instr (hs : S.Rests ⟨m, us ++ σ, offset, resume⟩ below s) (hend : offset ≠ e)
    (hi : m.fetch? offset = some i) (hret : i.op ≠ .ret) (hretVoid : i.op ≠ .retVoid)
    (hus : us.length = i.pops)
    (hmeets : ∀ a, i.action q m s.heap below.length us = .ok a → S.Meets q s ks a) :
    Via p Q below.length e s fun u => ∃ ws, S.Rests ⟨m, ws ++ σ, i.next, resume⟩ below u ∧
      Forall₂ (S.Means (u.world S.holdings)) ks ws := by
  obtain ⟨f, rest, hf, hout, hbelow, hlen⟩ := hs.exists_frame
  refine (via_step (mt hs.stands_iff.mp hend) fun t ht => ?_).trans fun u hu =>
    hq.via_rests hpart (o := ⟨m, σ, i.next, resume⟩) hu
  obtain ⟨method, args, locals, stack, offset, resume⟩ := f
  cases hout
  have hexec := ht.part hpart (by rw [hs.depth]; omega)
  obtain ⟨a, ha, hperf⟩ := (step_iff_perform hf hi hret hretVoid rfl hus).mp hexec
  have hexp : S.Expects q (.resting ⟨method, σ, i.next, resume⟩ below ks) ks
    (s.moved σ i.next) := by
    refine ⟨hs.stores.moved _ _, ?_⟩
    rw [outlines_moved hf, hbelow]
    exact .resting rfl (append_nil ks) rfl .nil
  rw [hlen] at ha
  exact (hq.toOpens.perform hexp ((hmeets a ha).moved σ i.next)).ok _ _ hperf

end Governed

end Meaning

end StackCode

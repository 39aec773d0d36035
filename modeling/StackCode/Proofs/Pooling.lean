import Mathlib.Data.List.Nodup
import StackCode.Proofs.Temporaries

/-!
# How many temporaries a context declares

A context that uses its temporaries again declares no more of them than it has to: of every type
there are as many as were in use at once in some statement. Operations that fail and are taken back
do not count.
-/

namespace StackCode

open Temporary Emission Nat

/-- The number of temporaries of a type. -/
def countType (d : DataType) (ts : List Temporary) : Nat := ts.countP (·.type = d)

theorem countType_append (d : DataType) (ts us : List Temporary) :
    countType d (ts ++ us) = countType d ts + countType d us := List.countP_append

theorem countType_cons (d : DataType) (t : Temporary) (ts : List Temporary) :
    countType d (t :: ts) = countType d ts + if t.type = d then 1 else 0 := by
  simp [countType, List.countP_cons]

/-- A pool where no temporary of a type is found has none. -/
theorem countType_of_takePooled {d : DataType} {ts : List Temporary}
    (h : Body.takePooled d ts = none) : countType d ts = 0 := by
  induction ts with
  | nil => rfl
  | cons t ts ih =>
    unfold Body.takePooled at h
    split at h
    · cases h
    · rename_i htype
      rw [countType_cons, ih (by simpa using h), if_neg htype]

namespace Slots

variable {options : EmitOptions} {s m : Slots} {d : DataType}

/-- The temporaries of a type, in the pool and in the statement. -/
def total (d : DataType) (s : Slots) : Nat := countType d s.pooled + countType d s.live

theorem live_le_total (d : DataType) (s : Slots) : countType d s.live ≤ s.total d :=
  Nat.le_add_left ..

section

variable (hreuse : options.reuseTemporaries)
include hreuse

theorem total_release (d : DataType) (s : Slots) : (s.release options).total d = s.total d := by
  simp only [total, release, hreuse, if_true, countType_append]
  simp [countType, Nat.add_comm]

/-- A temporary is declared only when all of its type are in use. -/
theorem Draw.total_eq (h : Draw options s m) (d : DataType) :
    m.total d = max (s.total d) (countType d m.live) ∧ countType d s.live ≤ countType d m.live := by
  cases h with
  | @again type t rest _ htake =>
    obtain ⟨-, hperm⟩ := Body.takePooled_some htake
    have hpool : countType d s.pooled = countType d (t :: rest) := hperm.countP_eq _
    simp only [total, countType_cons] at hpool ⊢
    omega
  | @fresh type _ hnone =>
    have hpool := countType_of_takePooled (hnone hreuse)
    simp only [total, countType_cons]
    split
    · rename_i htype
      cases htype
      omega
    · omega

theorem Draws.total_eq (h : Draws options s m) (d : DataType) :
    m.total d = max (s.total d) (countType d m.live) ∧ countType d s.live ≤ countType d m.live := by
  induction h with
  | refl =>
    have hle := s.live_le_total d
    omega
  | tail _ hdraw ih =>
    have hstep := hdraw.total_eq hreuse d
    omega

/-- A slot that is declared shows in the number of temporaries. -/
theorem Draws.locals_eq (h : Draws options s m) (htotal : ∀ d, m.total d ≤ s.total d) :
    m.locals = s.locals := by
  induction h with
  | refl => rfl
  | @tail m m' hdraws hdraw ih =>
    have hbefore (d : DataType) : m.total d ≤ s.total d := by
      have hstep := hdraw.total_eq hreuse d
      have hle := htotal d
      omega
    have hlocs := ih hbefore
    cases hdraw with
    | again => exact hlocs
    | @fresh type _ hnone =>
      exfalso
      have hgrown := Draws.total_eq hreuse hdraws type
      have hle := htotal type
      simp only [total, countType_cons, if_true] at hle hgrown
      omega

end

end Slots

/-! ### Two runs of one operation -/

namespace Emission

variable {α β : Type} {c : Setting}

/-- When both operations succeed, they draw temporaries of the same types. -/
def Alike (c : Setting) (x y : Emission α) : Prop :=
  ∀ b b' a a' m m', x.outcome c b = (.ok a, m) → y.outcome c b' = (.ok a', m') →
    ∃ types, m.live.map Temporary.type = types ++ b.live.map Temporary.type ∧
      m'.live.map Temporary.type = types ++ b'.live.map Temporary.type

theorem Alike.bind {x y : Emission α} {f g : α → Emission β} (hxy : Alike c x y)
    (hfg : ∀ a a', Alike c (f a) (g a')) : Alike c (x >>= f) (y >>= g) := by
  intro b b' a a' m m' hx hy
  obtain ⟨a₁, m₁, hx, hf⟩ := bind_ok hx
  obtain ⟨a₂, m₂, hy, hg⟩ := bind_ok hy
  obtain ⟨types, hm₁, hm₂⟩ := hxy _ _ _ _ _ _ hx hy
  obtain ⟨types', hm, hm'⟩ := hfg a₁ a₂ _ _ _ _ _ _ hf hg
  refine ⟨types' ++ types, ?_, ?_⟩
  · rw [hm, hm₁, List.append_assoc]
  · rw [hm', hm₂, List.append_assoc]

theorem Still.alike {x y : Emission α} (hx : x.Still) (hy : y.Still) : Alike c x y := by
  intro b b' a a' m m' hxm hym
  have hm : m.slots = b.slots := by simpa [hxm] using hx c b
  have hm' : m'.slots = b'.slots := by simpa [hym] using hy c b'
  exact ⟨[], congrArg (fun s : Slots => s.live.map type) hm,
    congrArg (fun s : Slots => s.live.map type) hm'⟩

/-- What is checked has the same outcome in both runs. -/
theorem Alike.checking {check : Setting → Except EmitError α} {f g : α → Emission β}
    (hfg : ∀ a, Alike c (f a) (g a)) :
    Alike c (checking check >>= f) (checking check >>= g) := by
  intro b b' a a' m m' hx hy
  rw [outcome_checking_bind] at hx hy
  cases hcheck : check c with
  | error e =>
    rw [hcheck] at hx
    cases hx
  | ok v =>
    rw [hcheck] at hx hy
    exact hfg v _ _ _ _ _ _ hx hy

theorem alike_acquireTemporary (type : DataType) :
    Alike c (acquireTemporary type) (acquireTemporary type) := by
  intro b b' a a' m m' hx hy
  exact ⟨[type], by rw [live_acquireTemporary hx]; rfl, by rw [live_acquireTemporary hy]; rfl⟩

theorem Alike.atomically {x y : Emission α} (h : Alike c x y) :
    Alike c (atomically x) (atomically y) := by
  have hinner {x : Emission α} {b m : Body} {a : α}
    (hx : (Emission.atomically x).outcome c b = (.ok a, m)) :
      x.outcome c b = (.ok a, m) := by
    rw [outcome_atomically] at hx
    split at hx
    · rename_i heq
      rw [heq, hx]
    · cases hx
  intro b b' a a' m m' hx hy
  exact h _ _ _ _ _ _ (hinner hx) (hinner hy)

theorem covers_alike (c : Setting) : Covers fun _ x y => Alike c x y where
  pure _ _ := Still.alike (fun _ _ => rfl) fun _ _ => rfl
  throw _ := Still.alike (fun _ _ => rfl) fun _ _ => rfl
  bind hxy hfg := hxy.bind hfg
  read hfg := fun _ _ _ _ _ _ hx hy => hfg c _ _ _ _ _ _ hx hy
  checking hfg := .checking hfg
  onEmitter _ _ := Still.alike (fun _ _ => rfl) fun _ _ => rfl
  acquire type := alike_acquireTemporary type
  still hx hy := hx.alike hy
  atomically h := h.atomically

end Emission

/-! ### Whole runs -/

namespace Session

variable {s s' : Session} {k : Call} {ks : List Call} {d : DataType}

/-- The temporaries in use when the call ends the statement, or else after the call. -/
def held (s : Session) (k : Call) : List Temporary := (k.work.outcome s.setting s.body).2.live

/-- The temporaries in use, call by call. -/
def moments : Session → List Call → List (List Temporary)
  | _, [] => []
  | s, k :: ks => s.held k :: moments (s.call k).2 ks

/-- The most temporaries of a type that were in use at once. -/
def peak (d : DataType) (s : Session) (ks : List Call) : Nat :=
  ((s.moments ks).map (countType d)).foldr max 0

theorem peak_cons (d : DataType) (s : Session) (k : Call) (ks : List Call) :
    s.peak d (k :: ks) = max (countType d (s.held k)) ((s.call k).2.peak d ks) := rfl

/-- The slots declared with a type that are no variables. -/
def temporariesOf (d : DataType) (s : Session) : List UInt16 :=
  s.temporaries.filter fun slot => s.body.locals[slot.toNat]? = some d

/-- Every declared slot that is no variable is a temporary of its type. -/
theorem Parted.length_temporariesOf (h : s.Parted) (hreuse : s.setting.options.reuseTemporaries)
    (d : DataType) : (s.temporariesOf d).length = s.body.slots.total d := by
  have hlimit := s.setting.options.maxLocals.toNat_lt
  have hsize : s.body.locals.size ≤ 65536 := h.few.trans hlimit.le
  have hdist := List.nodup_append.mp h.distinct
  have hperm : s.temporaries.Perm ((s.body.pooled ++ s.body.live).map slot) := by
    refine (List.perm_ext_iff_of_nodup ?_ hdist.2.1).mpr fun slot => ?_
    · refine List.filter_sublist.nodup ?_
      refine List.Nodup.map_on (fun n hn n' hn' heq => ?_) List.nodup_range
      have hvals := congrArg UInt16.toNat heq
      rw [UInt16.toNat_ofNat', UInt16.toNat_ofNat'] at hvals
      rw [List.mem_range] at hn hn'
      omega
    · rw [mem_temporaries hsize]
      constructor
      · rintro ⟨hlt, hvariable⟩
        obtain ⟨t, ht, rfl⟩ := (h.complete hreuse slot hlt).resolve_left hvariable
        exact List.mem_map_of_mem ht
      · intro hslot
        exact ⟨h.lt_size (List.mem_append_right _ hslot),
          fun hvariable => hdist.2.2 slot hvariable slot hslot rfl⟩
  have htyped : ∀ t ∈ s.body.pooled ++ s.body.live,
    (s.body.locals[t.slot.toNat]? = some d ↔ t.type = d) := by
    intro t ht
    have htype : s.body.locals[t.slot.toNat]? = some t.type := h.typed t ht
    rw [htype, Option.some.injEq]
  have hcount : (s.body.pooled ++ s.body.live).countP
    (fun t => decide (s.body.locals[t.slot.toNat]? = some d)) =
        countType d (s.body.pooled ++ s.body.live) :=
    List.countP_congr fun t ht => by simpa using htyped t ht
  rw [temporariesOf, ← List.countP_eq_length_filter, hperm.countP_eq, List.countP_map]
  exact hcount.trans (countType_append ..)

theorem held_declare (s : Session) (type : DataType) :
    s.held (.operation (.declare type)) = s.body.live := by
  have hwork : (Call.operation (.declare type)).work =
      (declareVariable type >>= fun x => pure (Answer.symbol x)) >>= fun _ => pure () := rfl
  rw [held, hwork, outcome_bind, outcome_bind]
  rcases declareVariable_cases type s.setting s.body with ⟨e, hcase⟩ | ⟨-, hcase⟩
  · rw [hcase]
  · rw [hcase]
    rfl

/-- One call: the temporaries of a type are as many as before, or as many as are in use. -/
theorem total_call (hreuse : s.setting.options.reuseTemporaries) (k : Call) (d : DataType) :
    (s.call k).2.body.slots.total d = max (s.body.slots.total d) (countType d (s.held k)) := by
  by_cases hk : k.Declares
  · obtain ⟨type, rfl⟩ := hk
    have hle := s.body.slots.live_le_total d
    have hlive : countType d (s.held (.operation (.declare type))) ≤ s.body.slots.total d := by
      rwa [held_declare]
    rw [max_eq_left hlive]
    rcases s.call_declare type with ⟨hslots, -⟩ | ⟨-, hslots, -⟩ <;> rw [hslots]
    rfl
  · obtain ⟨m, hm, hdraws, hslots, -⟩ := s.call_slots hk
    have htotal := hdraws.total_eq hreuse d
    have hlive : s.held k = m.live := by rw [hm]; rfl
    rw [hlive, ← htotal.1]
    rcases hslots with hslots | hslots <;> rw [hslots]
    exact Slots.total_release hreuse d m

/-- Whole runs: the temporaries of a type are as many as before, or as many as were in use at
once. -/
theorem total_callAll (hreuse : s.setting.options.reuseTemporaries) (ks : List Call)
    (d : DataType) :
    (s.callAll ks).body.slots.total d = max (s.body.slots.total d) (s.peak d ks) := by
  induction ks generalizing s with
  | nil => exact (max_eq_left (zero_le _)).symm
  | cons k ks ih =>
    have hrest : ((s.call k).2.callAll ks).body.slots.total d =
        max ((s.call k).2.body.slots.total d) ((s.call k).2.peak d ks) :=
      ih (by rwa [setting_call])
    rw [total_call hreuse] at hrest
    rwa [peak_cons, ← max_assoc]

/-! ### One statement again and again -/

/-- Every call is accepted when its turn comes. -/
def Accepts : Session → List Call → Prop
  | _, [] => True
  | s, k :: ks => (∃ a, (s.call k).1 = .ok a) ∧ Accepts (s.call k).2 ks

theorem accepts_append (s : Session) (ks ks' : List Call) :
    s.Accepts (ks ++ ks') ↔ s.Accepts ks ∧ (s.callAll ks).Accepts ks' := by
  induction ks generalizing s with
  | nil => simp [Accepts, callAll]
  | cons k ks ih =>
    rw [List.cons_append, Accepts, Accepts, ih, and_assoc]
    rfl

theorem callAll_append (s : Session) (ks ks' : List Call) :
    s.callAll (ks ++ ks') = (s.callAll ks).callAll ks' := List.foldl_append

/-- The types of the temporaries of the statement, the latest first. -/
def types (s : Session) : List DataType := s.body.live.map Temporary.type

/-- What a call that succeeds leaves in use. -/
theorem types_call {a : Answer} (hcall : (s.call k).1 = .ok a) : ∃ u m,
    k.work.outcome s.setting s.body = (.ok u, m) ∧
      (s.call k).2.types = if k.endsStatement then [] else m.live.map type := by
  have hcloses := k.closes_work s.setting s.body
  obtain ⟨b, hout, hbody⟩ := call_ok hcall
  rw [hout] at hcloses
  generalize k.work.outcome s.setting s.body = before at hcloses
  cases hcloses with
  | @done u _ m _ h =>
    refine ⟨u, m, rfl, ?_⟩
    have htys : (s.call k).2.types = b.slots.live.map type := by rw [types, hbody]; rfl
    rw [htys, h]
    split <;> rfl

/-- A run that starts with fewer temporaries in use never has more of them in use. -/
theorem Accepts.peak_le (hsetting : s'.setting = s.setting) (htys : s'.types <+: s.types)
    (hks : ∀ k ∈ ks, ¬k.Declares) (h : s.Accepts ks) (h' : s'.Accepts ks) (d : DataType) :
    s'.peak d ks ≤ s.peak d ks ∧ (s'.callAll ks).types <+: (s.callAll ks).types := by
  induction ks generalizing s s' with
  | nil => exact ⟨le_refl _, htys⟩
  | cons k ks ih =>
    obtain ⟨hk, hks⟩ := List.forall_mem_cons.mp hks
    obtain ⟨⟨a, hcall⟩, hrest⟩ := h
    obtain ⟨⟨a', hcall'⟩, hrest'⟩ := h'
    obtain ⟨u, m, hwork, hafter⟩ := types_call hcall
    obtain ⟨u', m', hwork', hafter'⟩ := types_call hcall'
    rw [hsetting] at hwork'
    -- both runs draw temporaries of the same types
    obtain ⟨drawn, hm, hm'⟩ := k.covers_work (covers_alike s.setting) hk _ _ _ _ _ _ hwork hwork'
    have hlive : m'.live.map type <+: m.live.map type := by
      rw [hm, hm']
      exact (List.prefix_append_right_inj drawn).mpr htys
    have hheld : countType d (s'.held k) ≤ countType d (s.held k) := by
      have hcount (ts : List Temporary) : countType d ts = (ts.map type).count d := by
        simp [countType, List.count, List.countP_map, Function.comp_def, beq_eq_decide]
      rw [held, held, hsetting, hwork, hwork', hcount, hcount]
      exact hlive.sublist.count_le d
    have hnext : (s'.call k).2.types <+: (s.call k).2.types := by
      rw [hafter, hafter']
      split
      · exact List.prefix_refl _
      · exact hlive
    have hnext := ih (by rw [setting_call, setting_call, hsetting]) hnext hks hrest hrest'
    rw [peak_cons, peak_cons]
    exact ⟨by omega, hnext.2⟩

section

variable (hreuse : s.setting.options.reuseTemporaries)
include hreuse

section

variable (hks : ∀ k ∈ ks, ¬k.Declares)
include hks

/-- Where no temporaries are declared, no slots are. -/
theorem locals_callAll (htotal : ∀ d, (s.callAll ks).body.slots.total d ≤ s.body.slots.total d) :
    (s.callAll ks).body.locals = s.body.locals := by
  induction ks generalizing s with
  | nil => rfl
  | cons k ks ih =>
    obtain ⟨hk, hks⟩ := List.forall_mem_cons.mp hks
    have hreuse' : (s.call k).2.setting.options.reuseTemporaries := by rwa [setting_call]
    have hall (d : DataType) : ((s.call k).2.callAll ks).body.slots.total d ≤
      s.body.slots.total d := htotal d
    have hgrown (d : DataType) := total_callAll hreuse' ks d
    have hfirst (d : DataType) := total_call hreuse k d
    have hrest : ((s.call k).2.callAll ks).body.locals = (s.call k).2.body.locals := by
      refine ih hreuse' hks fun d => ?_
      have := hall d
      have := hfirst d
      omega
    obtain ⟨m, hm, hdraws, hslots, -⟩ := s.call_slots hk
    have hm : m.locals = s.body.locals := by
      refine Slots.Draws.locals_eq hreuse hdraws fun d => ?_
      have hslots : (s.call k).2.body.slots.total d = m.total d := by
        rcases hslots with hslots | hslots <;> rw [hslots]
        exact Slots.total_release hreuse d m
      have := hall d
      have := hgrown d
      omega
    have hlocs : (s.call k).2.body.locals = m.locals := by
      rcases hslots with hslots | hslots <;> exact congrArg Slots.locals hslots
    exact hrest.trans (hlocs.trans hm)

/-- A statement that was emitted before needs no more slots. -/
theorem Accepts.again (h : s.Accepts ks) (hsetting : s'.setting = s.setting) (htys : s'.types = [])
    (htotal : ∀ d, s.peak d ks ≤ s'.body.slots.total d) (h' : s'.Accepts ks) :
    (s'.callAll ks).body.locals = s'.body.locals ∧
      (∀ d, (s'.callAll ks).body.slots.total d = s'.body.slots.total d) := by
  have hreuse' : s'.setting.options.reuseTemporaries := by rwa [hsetting]
  have htotal' (d : DataType) : (s'.callAll ks).body.slots.total d = s'.body.slots.total d := by
    have hpeak := (Accepts.peak_le hsetting (htys ▸ List.nil_prefix) hks h h' d).1
    have := total_callAll hreuse' ks d
    have := htotal d
    omega
  exact ⟨locals_callAll hreuse' hks fun d => (htotal' d).le, htotal'⟩

/-- Once a statement was emitted, it can be emitted any number of times in the same slots. -/
theorem Accepts.replicate (h : s.Accepts ks) (hend : (s.callAll ks).body.live = []) (n : Nat)
    (h' : (s.callAll ks).Accepts (List.replicate n ks).flatten) :
    ((s.callAll ks).callAll (List.replicate n ks).flatten).body.locals =
      (s.callAll ks).body.locals := by
  have hpeak (d : DataType) : s.peak d ks ≤ (s.callAll ks).body.slots.total d := by
    rw [total_callAll hreuse]
    exact le_max_right ..
  -- what is kept from one time to the next
  suffices hall : ∀ t : Session, t.setting = s.setting → t.types = [] →
      (∀ d, s.peak d ks ≤ t.body.slots.total d) → t.Accepts (List.replicate n ks).flatten →
      (t.callAll (List.replicate n ks).flatten).body.locals = t.body.locals by
    exact hall _ (setting_callAll s ks) (by rw [types, hend]; rfl) hpeak h'
  clear h'
  induction n with
  | zero => exact fun _ _ _ _ _ => rfl
  | succ n ih =>
    intro t hsetting htys htotal ht
    rw [List.replicate_succ, List.flatten_cons, accepts_append] at ht
    rw [List.replicate_succ, List.flatten_cons, callAll_append]
    obtain ⟨hlocs, hsame⟩ := h.again hreuse hks hsetting htys htotal ht.1
    have htys' : (t.callAll ks).types = [] := by
      have hpre := fun d => (Accepts.peak_le hsetting (htys ▸ List.nil_prefix) hks h ht.1 d).2
      have hnone : (s.callAll ks).types = [] := by rw [types, hend]; rfl
      exact List.prefix_nil.mp (hnone ▸ hpre default)
    rw [ih (t.callAll ks) (by rw [setting_callAll, hsetting]) htys' (fun d => by
      rw [hsame d]; exact htotal d)
      ht.2, hlocs]

end

end

/-- With temporaries used again, in every context, whatever was asked of it: the slots of a type
that are no variables are as many as the temporaries of the type that were in use at once, in the
statement that used most of them. So a statement that is emitted again, any number of times,
declares nothing more. -/
theorem pooling_is_tight {options : EmitOptions} (hreuse : options.reuseTemporaries)
    (id : ContextId)
    (registry : Registry) (function : FunctionDecl) (ks : List Call) :
    (∀ d, (((start id registry function options).callAll ks).temporariesOf d).length =
      (start id registry function options).peak d ks) ∧
    ∀ (statement : List Call) (n : Nat), (∀ k ∈ statement, ¬k.Declares) →
      (((start id registry function options).callAll ks).callAll statement).body.live = [] →
      ((start id registry function options).callAll ks).Accepts
        (List.replicate (n + 1) statement).flatten →
      (((start id registry function options).callAll ks).callAll
          (List.replicate (n + 1) statement).flatten).body.locals =
        (((start id registry function options).callAll ks).callAll statement).body.locals := by
  have hsetting := setting_callAll (start id registry function options) ks
  refine ⟨fun d => ?_, fun statement n hdeclares hend haccepts => ?_⟩
  · have hparted := (parted_start id registry function options).callAll ks
    rw [hparted.length_temporariesOf (by rwa [hsetting])]
    have htotal := total_callAll (s := start id registry function options) hreuse ks d
    exact htotal.trans (Nat.max_eq_right (Nat.zero_le _))
  · rw [List.replicate_succ, List.flatten_cons, accepts_append] at haccepts
    rw [List.replicate_succ, List.flatten_cons, callAll_append]
    exact haccepts.1.replicate (by rwa [hsetting]) hdeclares hend n haccepts.2

end Session

namespace Spilling

/-- A new context that uses temporaries again. -/
def empty : Session := .start ⟨0⟩ .empty (.staticMethod ⟨1⟩ "f" [] .void) .default

/-- The addresses of two numbers, which have to be stored somewhere. -/
def twoAddresses : List Call := [.operation (.load (.literal ⟨0⟩ (.int32 7)) (.reference true)),
    .operation (.load (.literal ⟨0⟩ (.int32 8)) (.reference true)), .operation .release]

theorem two_slots_are_enough :
    ((empty.callAll twoAddresses).temporariesOf (.plain .int32)).length = 2 ∧
      (empty.callAll (List.replicate 3 twoAddresses).flatten).body.locals =
        (empty.callAll twoAddresses).body.locals := by
  have hdeclares : ∀ k ∈ twoAddresses, ¬k.Declares := by
    rintro k hk ⟨type, rfl⟩
    simp [twoAddresses] at hk
  have haccepts : empty.Accepts (List.replicate 3 twoAddresses).flatten :=
    ⟨⟨_, rfl⟩, ⟨_, rfl⟩, ⟨_, rfl⟩, ⟨_, rfl⟩, ⟨_, rfl⟩, ⟨_, rfl⟩, ⟨_, rfl⟩, ⟨_, rfl⟩, ⟨_, rfl⟩,
      trivial⟩
  refine ⟨?_, (Session.pooling_is_tight rfl ⟨0⟩ .empty _ []).2 twoAddresses 2 hdeclares rfl
    haccepts⟩
  exact ((Session.pooling_is_tight rfl ⟨0⟩ .empty _ twoAddresses).1 (.plain .int32)).trans rfl

end Spilling

end StackCode

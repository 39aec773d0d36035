import StackCode.Proofs.Declarations
import StackCode.Proofs.Boundaries

/-!
# Scripts

A script says what is done with a context and names what the context has handed out by number, the
first one handed out being 0. It can be carried out in any context, and whoever carries it out never
makes anything up. Programs of scripts can be evaluated, and what is asked of them is decided.
-/

namespace StackCode

open List Option Operation Std.TreeMap

variable {h : TypeHash} {m : Method} {ms : List Method} {r : Registry} {d : Discipline}
  {xs : List Symbol} {q : Direction} {op : Operation} {qs : List Direction} {f : FunctionDecl}

/-- A way of making a symbol from others, which are named by number. -/
inductive Sketch
  | argument (index : Nat)
  | this
  | literal (value : Literal)
  | field (holder : Nat) (name : String)
  | staticField (owner : TypeHash) (name : String)
  | element (array index : Nat)
  | captured (id : CapturedId)
  | binary (op : BinaryOp) (lhs rhs : Nat)
  | unary (op : UnaryOp) (operand : Nat)
  | call (function : TypeHash) (receiver : Option Nat) (args : List Nat)
  | construct (function : TypeHash) (args : List Nat)
  | newArray (type : TypeHash) (length : Nat)
  | arrayLength (array : Nat)
  | convert (source : Nat) (target : DataType)

/-- An operation at the level of statements. What it is given is named by number. -/
inductive Direction
  | make (sketch : Sketch)
  | declare (type : DataType)
  | assign (dest source : Nat)
  | assignStackMediated (dest source : Nat)
  | statement (s : Nat)
  | returnValue (value : Option Nat)
  | defineLabel
  | markLabel (l : Nat)
  | jump (l : Nat)
  | openScope (kind : ScopeKind) (condition : Option Nat)
  | closeScope (h : Nat)
  | breakScope (h : Nat)
  | continueLoop (h : Nat)
  | breakIfFalse (h condition : Nat)
  | setLine (line : Nat)

/-- The thing with a number, if a number is given. -/
def pick? {α : Type} (xs : List α) : Option Nat → Option (Option α)
  | none => some none
  | some n => xs[n]?.map some

/-- The things with certain numbers. -/
def pickAll? {α : Type} (xs : List α) : List Nat → Option (List α)
  | [] => some []
  | n :: ns => do return (← xs[n]?) :: (← pickAll? xs ns)

/-- The factory that a sketch stands for, over given symbols. -/
def Sketch.resolve (xs : List Symbol) : Sketch → Option Factory
  | .argument index => some (.argument index)
  | .this => some .this
  | .literal l => some (.literal l)
  | .field holder name => do return .field (← xs[holder]?) name
  | .staticField owner name => some (.staticField owner name)
  | .element array index => do return .element (← xs[array]?) (← xs[index]?)
  | .captured id => some (.captured id)
  | .binary op lhs rhs => do return .binary op (← xs[lhs]?) (← xs[rhs]?)
  | .unary op operand => do return .unary op (← xs[operand]?)
  | .call function receiver args => do
    return .call function (← pick? xs receiver) (← pickAll? xs args)
  | .construct function args => do return .construct function (← pickAll? xs args)
  | .newArray type length => do return .newArray type (← xs[length]?)
  | .arrayLength array => do return .arrayLength (← xs[array]?)
  | .convert source target => do return .convert (← xs[source]?) target

/-- The operation that a direction stands for, over given symbols, labels and scopes. -/
def Direction.resolve (xs : List Symbol) (ls : List Label) (hs : List ScopeHandle) :
    Direction → Option Operation
  | .make sketch => do return .make (← sketch.resolve xs)
  | .declare type => some (.declare type)
  | .assign dest source => do return .assign (← xs[dest]?) (← xs[source]?)
  | .assignStackMediated dest source => do return .assignStackMediated (← xs[dest]?) (← xs[source]?)
  | .statement s => do return .statement (← xs[s]?)
  | .returnValue value => do return .returnValue (← pick? xs value)
  | .defineLabel => some .defineLabel
  | .markLabel l => do return .markLabel (← ls[l]?)
  | .jump l => do return .jump (← ls[l]?)
  | .openScope kind condition => do return .openScope kind (← pick? xs condition)
  | .closeScope h => do return .closeScope (← hs[h]?)
  | .breakScope h => do return .breakScope (← hs[h]?)
  | .continueLoop h => do return .continueLoop (← hs[h]?)
  | .breakIfFalse h condition => do return .breakIfFalse (← hs[h]?) (← xs[condition]?)
  | .setLine line => some (.setLine line)

/-! ### What is named is held -/

section Held

variable {α : Type}

theorem mem_of_pick? {xs : List α} {n : Option Nat} {x : Option α} (h : pick? xs n = some x) :
    ∀ y ∈ x.toList, y ∈ xs := by
  cases n with
  | none =>
    cases h
    simp
  | some n =>
    obtain ⟨y, hy, rfl⟩ := map_eq_some_iff.mp h
    simpa using mem_of_getElem? hy

theorem mem_of_pickAll? {xs : List α} {ns : List Nat} {ys : List α} (h : pickAll? xs ns = some ys) :
    ∀ y ∈ ys, y ∈ xs := by
  induction ns generalizing ys with
  | nil =>
    cases h
    simp
  | cons n ns ih =>
    obtain ⟨x, hx, h⟩ := bind_eq_some_iff.mp h
    obtain ⟨zs, hzs, h⟩ := bind_eq_some_iff.mp h
    cases h
    exact forall_mem_cons.mpr ⟨mem_of_getElem? hx, ih hzs⟩

theorem Sketch.parts_of_resolve {sketch : Sketch} {f : Factory} (h : sketch.resolve xs = some f) :
    ∀ x ∈ f.parts, x ∈ xs := by
  cases sketch with
  | argument | this | literal | staticField | captured =>
    cases h
    simp [Factory.parts]
  | field n | unary _ n | newArray _ n | arrayLength n | convert n =>
    obtain ⟨x, hx, h⟩ := bind_eq_some_iff.mp h
    cases h
    simpa [Factory.parts] using mem_of_getElem? hx
  | element n n' | binary _ n n' =>
    obtain ⟨x, hx, h⟩ := bind_eq_some_iff.mp h
    obtain ⟨y, hy, h⟩ := bind_eq_some_iff.mp h
    cases h
    simpa [Factory.parts] using ⟨mem_of_getElem? hx, mem_of_getElem? hy⟩
  | call function receiver args =>
    obtain ⟨x, hx, h⟩ := bind_eq_some_iff.mp h
    obtain ⟨ys, hys, h⟩ := bind_eq_some_iff.mp h
    cases h
    exact forall_mem_append.mpr ⟨mem_of_pick? hx, mem_of_pickAll? hys⟩
  | construct function args =>
    obtain ⟨ys, hys, h⟩ := bind_eq_some_iff.mp h
    cases h
    exact mem_of_pickAll? hys

/-- An operation that stands for a direction is given only what it is made from. -/
theorem Direction.given_of_resolve {ls : List Label} {hs : List ScopeHandle}
    (h : q.resolve xs ls hs = some op) :
    (∀ x ∈ op.symbols, x ∈ xs) ∧ (∀ l ∈ op.labels, l ∈ ls) ∧ ∀ k ∈ op.scopes, k ∈ hs := by
  cases q with
  | declare | defineLabel | setLine =>
    cases h
    simp [symbols, labels, scopes]
  | make sketch =>
    obtain ⟨f, hf, h⟩ := bind_eq_some_iff.mp h
    cases h
    exact ⟨Sketch.parts_of_resolve hf, by simp [labels], by simp [scopes]⟩
  | statement n =>
    obtain ⟨x, hx, h⟩ := bind_eq_some_iff.mp h
    cases h
    simpa [symbols, labels, scopes] using mem_of_getElem? hx
  | assign n n' | assignStackMediated n n' =>
    obtain ⟨x, hx, h⟩ := bind_eq_some_iff.mp h
    obtain ⟨y, hy, h⟩ := bind_eq_some_iff.mp h
    cases h
    simpa [symbols, labels, scopes] using ⟨mem_of_getElem? hx, mem_of_getElem? hy⟩
  | returnValue n | openScope _ n =>
    obtain ⟨x, hx, h⟩ := bind_eq_some_iff.mp h
    cases h
    exact ⟨mem_of_pick? hx, by simp [labels], by simp [scopes]⟩
  | markLabel n | jump n | closeScope n | breakScope n | continueLoop n =>
    obtain ⟨x, hx, h⟩ := bind_eq_some_iff.mp h
    cases h
    simpa [symbols, labels, scopes] using mem_of_getElem? hx
  | breakIfFalse n n' =>
    obtain ⟨x, hx, h⟩ := bind_eq_some_iff.mp h
    obtain ⟨y, hy, h⟩ := bind_eq_some_iff.mp h
    cases h
    simpa [symbols, labels, scopes] using ⟨mem_of_getElem? hy, mem_of_getElem? hx⟩

end Held

namespace Session

/-- The operation that a direction stands for in a session. -/
def operation? (s : Session) (q : Direction) : Option Operation :=
  q.resolve s.symbols.reverse s.labels.reverse s.scopes.reverse

/-- A direction is carried out. Numbers that stand for nothing are ignored. -/
def fulfil (s : Session) (q : Direction) : Session := match s.operation? q with
  | some op => (s.perform op).2
  | none => s

/-- Directions are carried out one after the other. -/
def enact (s : Session) : List Direction → Session
  | [] => s
  | q :: qs => (s.fulfil q).enact qs

variable {s : Session}

theorem permits_operation? (h : s.operation? q = some op) : s.Permits op := by
  obtain ⟨hsyms, hlabels, hscopes⟩ := Direction.given_of_resolve h
  exact ⟨fun x hx => .inl (mem_reverse.mp (hsyms x hx)), fun l hl =>
    .inl (mem_reverse.mp (hlabels l hl)),
    fun k hk => .inl (mem_reverse.mp (hscopes k hk))⟩

/-- The operations of a script keep to a rule. -/
def Follows (rule : Operation → Prop) (s : Session) : List Direction → Prop
  | [] => True
  | q :: qs => (∀ op ∈ s.operation? q, rule op) ∧ Follows rule (s.fulfil q) qs

instance decidableFollows (rule : Operation → Prop) [DecidablePred rule] :
    ∀ (s : Session) (qs : List Direction), Decidable (s.Follows rule qs)
  | _, [] => isTrue trivial
  | s, q :: qs =>
    have := decidableFollows rule (s.fulfil q) qs
    inferInstanceAs (Decidable ((∀ op ∈ s.operation? q, rule op) ∧ Follows rule (s.fulfil q) qs))

theorem steps_enact {rule : Operation → Prop} (h : s.Follows rule qs) :
    Steps rule s (s.enact qs) := by
  induction qs generalizing s with
  | nil => exact .refl
  | cons q qs ih =>
    obtain ⟨hq, hqs⟩ := h
    refine .trans ?_ (ih hqs)
    unfold fulfil
    cases hop : s.operation? q with
    | none => exact .refl
    | some op => exact .single ⟨op, permits_operation? hop, hq op hop, rfl⟩

end Session

/-! ### Methods and programs -/

/-- The type of the elements, for arrays. -/
def Factory.element? : Factory → Option TypeHash
  | .newArray type _ => some type
  | _ => none

theorem Discipline.statements_make_iff (f : Factory) : statements.make f ↔
    (∀ s ∈ f.parts, s.dataType.hash ≠ .void) ∧ ∀ type ∈ f.element?, type ≠ .void := by
  cases f <;> simp [statements, Factory.element?]

instance : DecidablePred Discipline.statements.Allows
  | .make f => decidable_of_iff _ (Discipline.statements_make_iff f).symm
  | .declare type | .acquireTemporary type => inferInstanceAs (Decidable (type.hash ≠ .void))
  | .load _ _ => isFalse id
  | .statement s => inferInstanceAs (Decidable (s.dataType.hash = .void → s.isCall))
  | .assign dest source | .assignStackMediated dest source =>
    inferInstanceAs (Decidable (dest.dataType.hash ≠ .void ∧ source.dataType.hash ≠ .void))
  | .returnValue s | .openScope _ s =>
    inferInstanceAs (Decidable (∀ x ∈ s, x.dataType.hash ≠ .void))
  | .breakIfFalse _ s => inferInstanceAs (Decidable (s.dataType.hash ≠ .void))
  | .defineLabel | .markLabel _ | .jump _ | .closeScope _ | .breakScope _ | .continueLoop
    _ | .release
  | .setLine _ => isTrue trivial

namespace Method

variable (r : Registry) (f : FunctionDecl) (qs : List Direction)

/-- The session in which the method of a function is made by a script. -/
def script : Session := (Session.start ⟨0⟩ r f .default).enact qs

/-- The method of a function that a script makes. -/
def scripted : Method where
  function := f
  chunk := (script r f qs).context.chunk
  constants := (script r f qs).body.emitter.constants
  locals := (script r f qs).body.locals

/-- Everything is closed and marked at the end of a script, and the code does not fall through. -/
@[mk_iff]
structure Ends : Prop where
  scopes : (script r f qs).body.scopes.opened.isEmpty
  labels : (script r f qs).body.emitter.labels.unresolved = 0
  falls : (script r f qs).context.fallsThrough = false

instance : Decidable (Ends r f qs) := decidable_of_iff _ (ends_iff r f qs).symm

variable {r f qs}

theorem finish_scripted (h : (Session.start ⟨0⟩ r f .default).Follows d.Allows qs)
    (hends : Ends r f qs) : (script r f qs).context.finish = .ok (scripted r f qs) := by
  obtain ⟨-, -, -, hsetting⟩ := (Session.inv_start ⟨0⟩ r f .default d).steps (Session.steps_enact h)
  have hfun : (script r f qs).context.setting.function = f := congrArg Setting.function hsetting
  rw [Context.finish_eq (isEmpty_iff.mp hends.scopes) hends.labels hends.falls, hfun]
  rfl

theorem ofStatements_scripted (h : (Session.start ⟨0⟩ r f .default).Follows
    Discipline.statements.Allows qs)
    (hends : Ends r f qs) : (scripted r f qs).OfStatements r :=
  ⟨⟨0⟩, .default, script r f qs, Session.steps_enact h, finish_scripted h hends⟩

end Method

/-- A program of methods, without native functions. -/
def Program.ofMethods (r : Registry) (ms : List Method) : Program where
  registry := r
  methods := ms.foldl (fun methods m => methods.insert m.function.hash m) ∅
  natives := ∅
  maxDepth := Machine.defaultMaxDepth

@[simp] theorem Program.natives_ofMethods (r : Registry) (ms : List Method) (h : TypeHash) :
    (ofMethods r ms).natives[h]? = none := by
  simp [ofMethods]

/-- What is found in a table of methods that were added one after the other. -/
theorem getElem?_foldl_insert {methods : Std.TreeMap TypeHash Method}
    (hm : (ms.foldl (fun methods m => methods.insert m.function.hash m) methods)[h]? = some m) :
    methods[h]? = some m ∨ m ∈ ms ∧ h = m.function.hash := by
  induction ms generalizing methods with
  | nil => exact .inl hm
  | cons m' ms ih =>
    rcases ih hm with hm | ⟨hmem, hh⟩
    · rw [Std.TreeMap.getElem?_insert] at hm
      split at hm
      · rename_i heq
        cases hm
        exact .inr ⟨mem_cons_self, (Std.LawfulEqOrd.eq_of_compare heq).symm⟩
      · exact .inl hm
    · exact .inr ⟨mem_cons_of_mem _ hmem, hh⟩

theorem Program.mem_of_ofMethods (hm : (ofMethods r ms).methods[h]? = some m) :
    m ∈ ms ∧ h = m.function.hash := by
  rcases getElem?_foldl_insert hm with hm | hm
  · simp at hm
  · exact hm

/-- Methods of different functions are all there. -/
theorem Program.methods_ofMethods (hm : m ∈ ms) (hdist : (ms.map fun m => m.function.hash).Nodup) :
    (ofMethods r ms).methods[m.function.hash]? = some m := by
  have hfold : ∀ (methods : Std.TreeMap TypeHash Method) (ms : List Method),
      (ms.map fun m => m.function.hash).Nodup → m ∈ ms ∨
        methods[m.function.hash]? = some m ∧ m.function.hash ∉ (ms.map fun m => m.function.hash) →
      (ms.foldl (fun methods m => methods.insert m.function.hash m) methods)[m.function.hash]? =
        some m := by
    intro methods ms
    induction ms generalizing methods with
    | nil =>
      intro _ h
      exact (h.resolve_left (by simp)).1
    | cons m' ms ih =>
      intro hnodup h
      obtain ⟨hnot, hnodup⟩ := nodup_cons.mp hnodup
      refine ih _ hnodup ?_
      rcases h with h | ⟨h, hother⟩
      · rcases mem_cons.mp h with rfl | h
        · exact .inr ⟨by simp, hnot⟩
        · exact .inl h
      · rw [map_cons, mem_cons, not_or] at hother
        refine .inr ⟨?_, hother.2⟩
        rw [Std.TreeMap.getElem?_insert, if_neg, h]
        exact fun heq => hother.1 (Std.LawfulEqOrd.eq_of_compare heq).symm
  exact hfold ∅ ms hdist (.inl hm)

/-! ### Registries -/

namespace Registry

theorem Registered.after (h : r.Registered) (q : Request) : (r.after q).Registered := by
  cases q with
  | primitives => exact h.primitives
  | type t => exact h.type t
  | array element => exact h.array element
  | function f => exact h.function f
  | operators owner | constructor owner | conversion owner => exact h.remember owner

theorem Registered.foldl_after (h : r.Registered) (qs : List Request) :
    (qs.foldl Registry.after r).Registered := by
  induction qs generalizing r with
  | nil => exact h
  | cons q qs ih => exact ih (h.after q)

theorem registered_of_requests (qs : List Request) : (Request.registry qs).Registered :=
  Registered.empty.foldl_after qs

theorem forall_types {P : TypeHash → TypeDecl → Prop} (hP : ∀ e ∈ r.types.toList, P e.1 e.2)
    {t : TypeDecl} (ht : r.type? h = some t) : P h t :=
  hP (h, t) (mem_toList_iff_getElem?_eq_some.mpr ht)

theorem forall_functions {P : TypeHash → FunctionDecl → Prop}
    (hP : ∀ e ∈ r.functions.toList, P e.1 e.2)
    (hf : r.function? h = some f) :
    P h f :=
  hP (h, f) (mem_toList_iff_getElem?_eq_some.mpr hf)

/-- Nothing but results is `void`, as can be seen from the entries. -/
theorem voidFree_iff :
    r.VoidFree ↔ (∀ e ∈ r.types.toList, (e.2.kind = .primitive .void → e.1 = .void) ∧
      ∀ f ∈ e.2.fields, f.type.hash ≠ .void) ∧
    (∀ e ∈ r.fields.toList, e.2.type.hash ≠ .void) ∧
    ∀ e ∈ r.functions.toList, e.2.kind = .constructor → e.2.owner ≠ some .void := by
  constructor
  · refine fun h => ⟨fun e he => ?_, fun e he => ?_, fun e he => ?_⟩
    · have ht : r.type? e.1 = some e.2 := mem_toList_iff_getElem?_eq_some.mp he
      exact ⟨fun hkind => h.only e.1 (by rw [kind?, ht, map_some, hkind]), h.members e.1 e.2 ht⟩
    · exact h.fields e.1 e.2 (mem_toList_iff_getElem?_eq_some.mp he)
    · exact h.constructed e.1 e.2 (mem_toList_iff_getElem?_eq_some.mp he)
  · rintro ⟨htys, hfields, hfuns⟩
    refine ⟨fun h hh => ?_, fun h t ht => ?_, fun h f hf => ?_, fun h f hf => ?_⟩
    · obtain ⟨t, ht, hkind⟩ := map_eq_some_iff.mp hh
      exact forall_types (P := fun h t => t.kind = .primitive .void → h = .void)
        (fun e he => (htys e he).1) ht hkind
    · exact forall_types (P := fun _ t => ∀ f ∈ t.fields, f.type.hash ≠ .void)
        (fun e he => (htys e he).2) ht
    · exact hfields (h, f) (mem_toList_iff_getElem?_eq_some.mpr hf)
    · exact forall_functions (P := fun _ f => f.kind = .constructor → f.owner ≠ some .void) hfuns hf

instance : Decidable r.VoidFree := decidable_of_iff _ voidFree_iff.symm

end Registry

/-! ### Programs of scripts -/

namespace Program

variable (r : Registry) (ss : List (FunctionDecl × List Direction))

/-- A program of functions and the scripts for their methods. -/
def ofScripts : Program := ofMethods r (ss.map fun s => .scripted r s.1 s.2)

/-- The scripts can be carried out as the discipline allows, and make methods of different functions
that are registered. -/
@[mk_iff]
structure Scripted (d : Discipline) : Prop where
  distinct : (ss.map fun s => s.1.hash).Nodup
  registered : ∀ s ∈ ss, r.function? s.1.hash = some s.1
  follows : ∀ s ∈ ss, (Session.start ⟨0⟩ r s.1 .default).Follows d.Allows s.2
  ends : ∀ s ∈ ss, Method.Ends r s.1 s.2

instance (d : Discipline) [DecidablePred d.Allows] : Decidable (Scripted r ss d) :=
  decidable_of_iff _ (scripted_iff r ss d).symm

variable {r ss}

theorem Scripted.methods (h : Scripted r ss d) (hs : (f, qs) ∈ ss) :
    (ofScripts r ss).methods[f.hash]? = some (.scripted r f qs) := by
  refine methods_ofMethods (m := .scripted r f qs) (List.mem_map_of_mem hs) ?_
  rw [List.map_map]
  exact h.distinct

theorem Scripted.ofStatements (h : Scripted r ss .statements)
    (hm : m ∈ ss.map fun s => .scripted r s.1 s.2) :
    r.function? m.function.hash = some m.function ∧ m.OfStatements r := by
  obtain ⟨s, hs, rfl⟩ := mem_map.mp hm
  exact ⟨h.registered s hs, Method.ofStatements_scripted (h.follows s hs) (h.ends s hs)⟩

end Program

end StackCode

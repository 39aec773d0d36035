import StackCode.Proofs.Session

/-!
# Made symbols

What is known of a symbol that was made by a factory: what it looks like, and what was checked. A
symbol belongs to the context that made it, and so do its parts.
-/

namespace StackCode

open Setting

variable {function : TypeHash} {f : FunctionDecl} {args : List Symbol} {c : Setting}
  {s array : Symbol}
  {name : String}

theorem bind_eq_ok {ε α β : Type} {x : Except ε α} {f : α → Except ε β} {r : β}
    (h : (x >>= f) = .ok r) : ∃ a, x = .ok a ∧ f a = .ok r := by
  cases x with
  | error e => cases h
  | ok a => exact ⟨a, rfl, h⟩

namespace Setting

theorem checkSymbol_ok {x : Symbol} (h : c.checkSymbol x = .ok ()) : x.context = c.id := by
  unfold checkSymbol check at h
  split at h
  · assumption
  · cases h

theorem argument_ok {index : Nat} (h : c.argument index = .ok s) :
    ∃ p, c.function.params[index]? = some p ∧
      s = .argument c.id (UInt16.ofNat (index + if c.isInstance then 1 else 0)) p.slotType := by
  unfold argument at h
  split at h
  · rename_i p hp
    cases h
    exact ⟨p, hp, rfl⟩
  · cases h

/-- The type of the receiver's slot. -/
def receiverType (c : Setting) (owner : TypeHash) : DataType :=
  if c.registry.isValueType owner then .byRef owner else .plain owner

theorem this_ok (h : c.this = .ok s) : ∃ owner, c.function.owner = some owner ∧ c.isInstance ∧
      s = .argument c.id 0 (c.receiverType owner) := by
  unfold this at h
  split at h
  · rename_i owner howner hinst
    cases h
    exact ⟨owner, howner, hinst, rfl⟩
  · cases h

theorem field_ok {holder : Symbol} (h : c.field holder name = .ok s) :
    holder.context = c.id ∧ ∃ f, c.registry.field? holder.valueType.hash name = some f ∧
      f.isStatic = false ∧ s = .field c.id holder f := by
  obtain ⟨_, hcheck, h⟩ := bind_eq_ok h
  refine ⟨checkSymbol_ok hcheck, ?_⟩
  dsimp only at h
  split at h
  · rename_i f hf
    cases h
    obtain ⟨hf, hstat⟩ := Option.filter_eq_some_iff.mp hf
    exact ⟨f, hf, by simpa using hstat, rfl⟩
  · cases h

theorem staticField_ok {owner : TypeHash} (h : c.staticField owner name = .ok s) :
    ∃ f, c.registry.field? owner name = some f ∧ f.isStatic ∧ s = .staticField c.id f := by
  unfold staticField at h
  split at h
  · rename_i f hf
    cases h
    obtain ⟨hf, hstat⟩ := Option.filter_eq_some_iff.mp hf
    exact ⟨f, hf, hstat, rfl⟩
  · cases h

theorem requireInt32_ok {x : Symbol} (h : c.requireInt32 x = .ok ()) :
    x.valueType.hash = .int32 := by
  unfold requireInt32 at h
  split at h
  · assumption
  · cases h

theorem element_ok {index : Symbol} (h : c.element array index = .ok s) :
    array.context = c.id ∧ index.context = c.id ∧ ∃ e,
      c.registry.arrayElement? array.valueType.hash = some e ∧ index.valueType.hash = .int32 ∧
      s = .element c.id array index (.plain e) := by
  obtain ⟨_, harray, h⟩ := bind_eq_ok h
  obtain ⟨_, hidx, h⟩ := bind_eq_ok h
  refine ⟨checkSymbol_ok harray, checkSymbol_ok hidx, ?_⟩
  split at h
  · cases h
  · rename_i e he
    obtain ⟨_, hint, h⟩ := bind_eq_ok h
    cases h
    exact ⟨e, he, requireInt32_ok hint, rfl⟩

theorem captured_ok {id : CapturedId} (h : c.captured id = .ok s) :
    c.function.owner = some id.owner ∧ s = .captured c.id id := by
  unfold captured at h
  split at h
  · rename_i howner
    cases h
    exact ⟨howner, rfl⟩
  · cases h

theorem binary_ok {op : BinaryOp} {lhs rhs : Symbol} (h : c.binary op lhs rhs = .ok s) :
    lhs.context = c.id ∧ rhs.context = c.id ∧ lhs.valueType = rhs.valueType ∧
      c.supportsBinary op lhs.valueType.hash ∧
      s = .binary c.id op lhs rhs (if op.isComparison then .plain .bool else lhs.valueType) := by
  obtain ⟨_, hlhs, h⟩ := bind_eq_ok h
  obtain ⟨_, hrhs, h⟩ := bind_eq_ok h
  refine ⟨checkSymbol_ok hlhs, checkSymbol_ok hrhs, ?_⟩
  by_cases hsame : lhs.valueType = rhs.valueType
  · rw [if_neg (by simpa using hsame)] at h
    by_cases hsup : c.supportsBinary op lhs.valueType.hash
    · rw [if_neg (by simpa using hsup)] at h
      cases h
      exact ⟨hsame, hsup, rfl⟩
    · rw [if_pos (by simpa using hsup)] at h
      cases h
  · rw [if_pos (by simpa using hsame)] at h
    cases h

theorem unary_ok {op : UnaryOp} {operand : Symbol} (h : c.unary op operand = .ok s) :
    operand.context = c.id ∧ c.supportsUnary op operand.valueType.hash ∧
      s = .unary c.id op operand operand.valueType := by
  obtain ⟨_, hop, h⟩ := bind_eq_ok h
  refine ⟨checkSymbol_ok hop, ?_⟩
  split at h
  · obtain ⟨_, hno, _⟩ := bind_eq_ok h
    cases hno
  rename_i hsup
  cases h
  exact ⟨by simpa using hsup, rfl⟩

theorem lookup_ok (h : c.lookup function = .ok f) : c.registry.function? function = some f := by
  unfold lookup at h
  split at h
  · cases h
    assumption
  · cases h

theorem forM_checkSymbol_ok {xs : List Symbol} (h : xs.forM c.checkSymbol = .ok ()) :
    ∀ x ∈ xs, x.context = c.id := by
  induction xs with
  | nil => simp
  | cons x xs ih =>
    change (c.checkSymbol x >>= fun _ => xs.forM c.checkSymbol) = .ok () at h
    obtain ⟨_, hx, h⟩ := bind_eq_ok h
    intro y hy
    rcases List.mem_cons.mp hy with rfl | hy
    · exact checkSymbol_ok hx
    · exact ih h y hy

theorem checkArguments_ok (h : c.checkArguments f args = .ok ()) :
    args.length = f.params.length ∧ (∀ x ∈ args, x.context = c.id) ∧
    c.checkTypes args f.params = .ok () := by
  unfold checkArguments at h
  split at h
  · cases h
  rename_i hlen
  obtain ⟨_, hargs, h⟩ := bind_eq_ok h
  exact ⟨by simpa using hlen, forM_checkSymbol_ok hargs, h⟩

theorem checkReceiver_ok {receiver : Symbol} (h : c.checkReceiver f receiver = .ok ()) :
    receiver.context = c.id ∧
      c.registry.assignable receiver.valueType.hash (f.owner.getD .empty) := by
  obtain ⟨_, hrecv, h⟩ := bind_eq_ok h
  refine ⟨checkSymbol_ok hrecv, ?_⟩
  dsimp only at h
  split at h
  · cases h
  · rename_i hassign
    simpa using hassign

theorem call_ok {receiver : Option Symbol} (h : c.call function receiver args = .ok s) :
    ∃ f, c.registry.function? function = some f ∧ f.kind ≠ .constructor ∧
    c.checkArguments f args = .ok () ∧
      ((∃ x, receiver = some x ∧ f.isStatic = false ∧ c.checkReceiver f x = .ok () ∧
        s = .callOn c.id f x args) ∨
        (receiver = none ∧ f.isStatic ∧ s = .call c.id f args)) := by
  obtain ⟨f, hf, h⟩ := bind_eq_ok h
  dsimp only at h
  split at h
  · cases h
  rename_i hkind
  refine ⟨f, lookup_ok hf, hkind, ?_⟩
  cases receiver with
  | some x =>
    cases hstat : f.isStatic with
    | false =>
      simp only [hstat] at h
      obtain ⟨_, hrecv, h⟩ := bind_eq_ok h
      obtain ⟨_, hargs, h⟩ := bind_eq_ok h
      cases h
      exact ⟨hargs, .inl ⟨x, rfl, rfl, hrecv, rfl⟩⟩
    | true =>
      simp only [hstat] at h
      cases h
  | none =>
    cases hstat : f.isStatic with
    | false =>
      simp only [hstat] at h
      cases h
    | true =>
      simp only [hstat] at h
      obtain ⟨_, hargs, h⟩ := bind_eq_ok h
      cases h
      exact ⟨hargs, .inr ⟨rfl, rfl, rfl⟩⟩

theorem construct_ok (h : c.construct function args = .ok s) :
    ∃ f owner, c.registry.function? function = some f ∧ f.kind = .constructor ∧
      f.owner = some owner ∧ c.checkArguments f args = .ok () ∧
      s = .construct c.id f owner args := by
  obtain ⟨f, hf, h⟩ := bind_eq_ok h
  split at h
  · rename_i owner hkind howner
    obtain ⟨_, hargs, h⟩ := bind_eq_ok h
    cases h
    exact ⟨f, owner, lookup_ok hf, hkind, howner, hargs, rfl⟩
  · cases h

theorem newArray_ok {type : TypeHash} {length : Symbol} (h : c.newArray type length = .ok s) :
    length.context = c.id ∧ c.registry.containsType (.arrayOf type) ∧
      length.valueType.hash = .int32 ∧ s = .newArray c.id type length := by
  obtain ⟨_, hlen, h⟩ := bind_eq_ok h
  refine ⟨checkSymbol_ok hlen, ?_⟩
  split at h
  · cases h
  rename_i hcontains
  obtain ⟨_, hint, h⟩ := bind_eq_ok h
  cases h
  exact ⟨by simpa using hcontains, requireInt32_ok hint, rfl⟩

theorem arrayLength_ok (h : c.arrayLength array = .ok s) :
    array.context = c.id ∧ s = .arrayLength c.id array := by
  obtain ⟨_, harray, h⟩ := bind_eq_ok h
  refine ⟨checkSymbol_ok harray, ?_⟩
  split at h
  · obtain ⟨_, hno, _⟩ := bind_eq_ok h
    cases hno
  · cases h
    rfl

theorem convert_ok {source : Symbol} {target : DataType} (h : c.convert source target = .ok s) :
    source.context = c.id ∧ ∃ k, c.registry.resolve source.valueType.hash target.dereferenced.hash =
      .ok k ∧
      s = .converted c.id source k := by
  obtain ⟨_, hsrc, h⟩ := bind_eq_ok h
  obtain ⟨k, hk, h⟩ := bind_eq_ok h
  cases h
  exact ⟨checkSymbol_ok hsrc, k, hk, rfl⟩

end Setting

/-! ### What a symbol is made of -/

/-- The symbols that a symbol is composed of. -/
def Symbol.parts : Symbol → List Symbol
  | .localSlot _ _ _ | .argument _ _ _ | .staticField _ _ | .captured _ _ | .literal _ _ => []
  | .field _ s _ | .unary _ _ s _ | .newArray _ _ s | .arrayLength _ s | .converted _ s _ => [s]
  | .element _ s s' _ | .binary _ _ s s' _ => [s, s']
  | .call _ _ args | .construct _ _ _ args => args
  | .callOn _ _ receiver args => receiver :: args

/-- A made symbol belongs to the context, is composed of the given parts, and these belong to the
context as well. -/
theorem Factory.make_ok {f : Factory} (h : f.make c = .ok s) :
    s.context = c.id ∧ s.parts = f.parts ∧ ∀ p ∈ f.parts, p.context = c.id := by
  cases f with
  | argument index =>
    obtain ⟨p, -, rfl⟩ := argument_ok h
    exact ⟨rfl, rfl, by simp [parts]⟩
  | this =>
    obtain ⟨owner, -, -, rfl⟩ := this_ok h
    exact ⟨rfl, rfl, by simp [parts]⟩
  | literal l =>
    cases h
    exact ⟨rfl, rfl, by simp [parts]⟩
  | field holder name =>
    obtain ⟨hhold, f, -, -, rfl⟩ := field_ok h
    exact ⟨rfl, rfl, by simpa [parts] using hhold⟩
  | staticField owner name =>
    obtain ⟨f, -, -, rfl⟩ := staticField_ok h
    exact ⟨rfl, rfl, by simp [parts]⟩
  | element array index =>
    obtain ⟨harray, hidx, e, -, -, rfl⟩ := element_ok h
    exact ⟨rfl, rfl, by simp [parts, harray, hidx]⟩
  | captured id =>
    obtain ⟨-, rfl⟩ := captured_ok h
    exact ⟨rfl, rfl, by simp [parts]⟩
  | binary op lhs rhs =>
    obtain ⟨hlhs, hrhs, -, -, rfl⟩ := binary_ok h
    exact ⟨rfl, rfl, by simp [parts, hlhs, hrhs]⟩
  | unary op operand =>
    obtain ⟨hop, -, rfl⟩ := unary_ok h
    exact ⟨rfl, rfl, by simpa [parts] using hop⟩
  | call function receiver args =>
    obtain ⟨f, -, -, hargs, ⟨x, rfl, -, hrecv, rfl⟩ | ⟨rfl, -, rfl⟩⟩ := call_ok h
    · obtain ⟨-, hargs, -⟩ := checkArguments_ok hargs
      obtain ⟨hrecv, -⟩ := checkReceiver_ok hrecv
      exact ⟨rfl, rfl, by simpa [parts, hrecv] using hargs⟩
    · obtain ⟨-, hargs, -⟩ := checkArguments_ok hargs
      exact ⟨rfl, rfl, by simpa [parts] using hargs⟩
  | construct function args =>
    obtain ⟨f, owner, -, -, -, hargs, rfl⟩ := construct_ok h
    obtain ⟨-, hargs, -⟩ := checkArguments_ok hargs
    exact ⟨rfl, rfl, by simpa [parts] using hargs⟩
  | newArray type length =>
    obtain ⟨hlen, -, -, rfl⟩ := newArray_ok h
    exact ⟨rfl, rfl, by simpa [parts] using hlen⟩
  | arrayLength array =>
    obtain ⟨harray, rfl⟩ := arrayLength_ok h
    exact ⟨rfl, rfl, by simpa [parts] using harray⟩
  | convert source target =>
    obtain ⟨hsrc, k, -, rfl⟩ := convert_ok h
    exact ⟨rfl, rfl, by simpa [parts] using hsrc⟩

/-! ### Rules that a user may follow -/

/-- Which types slots may have, which symbols may be made, and which symbols may be used: loaded
without further use, evaluated for their effect, or as operands of other operations. -/
structure Discipline where
  type : DataType → Prop
  make : Factory → Prop
  load : Symbol → Prop
  statement : Symbol → Prop
  operand : Symbol → Prop

/-- Everything is allowed. -/
def Discipline.free : Discipline :=
  ⟨fun _ => True, fun _ => True, fun _ => True, fun _ => True, fun _ => True⟩

/-- An operation keeps to the rules. -/
def Discipline.Allows (d : Discipline) : Operation → Prop
  | .make f => d.make f
  | .declare type | .acquireTemporary type => d.type type
  | .load s _ => d.load s
  | .statement s => d.statement s
  | .assign dest source | .assignStackMediated dest source => d.operand dest ∧ d.operand source
  | .returnValue s | .openScope _ s => ∀ x ∈ s, d.operand x
  | .breakIfFalse _ s => d.operand s
  | .defineLabel | .markLabel _ | .jump _ | .closeScope _ | .breakScope _ | .continueLoop _
  | .release | .setLine _ => True

theorem Discipline.free_allows (op : Operation) : free.Allows op := by
  cases op <;> simp [Allows, free]

namespace Setting

variable {d : Discipline} {locals locals' : Array DataType}

/-- The symbols that a user of a context can come to hold while it has the given local slots. -/
inductive Made (c : Setting) (d : Discipline) (locals : Array DataType) : Symbol → Prop
  | declared {slot : UInt16} {type : DataType} (h : locals[slot.toNat]? = some type) :
      Made c d locals (.localSlot c.id slot type)
  | factory {f : Factory} {s : Symbol} (h : f.make c = .ok s) (hmake : d.make f)
      (hparts : ∀ p ∈ f.parts, Made c d locals p) : Made c d locals s

theorem Made.parts (h : c.Made d locals s) : ∀ p ∈ s.parts, c.Made d locals p := by
  cases h with
  | declared => simp [Symbol.parts]
  | factory h _ hparts =>
    rwa [(Factory.make_ok h).2.1]

theorem Made.mono (hlocs : locals.toList <+: locals'.toList) (h : c.Made d locals s) :
    c.Made d locals' s := by
  induction h with
  | declared h =>
    refine .declared ?_
    obtain ⟨more, hmore⟩ := hlocs
    rw [← Array.getElem?_toList] at h ⊢
    rwa [← hmore, List.getElem?_append_left (List.getElem?_eq_some_iff.mp h).1]
  | factory h hmake _ ih => exact .factory h hmake ih

/-- What was checked when a symbol was made, apart from its parts. -/
def Checked (c : Setting) (d : Discipline) (locals : Array DataType) : Symbol → Prop
  | .localSlot _ slot type => locals[slot.toNat]? = some type
  | .argument _ slot type =>
    (∃ index p, c.function.params[index]? = some p ∧
      slot = UInt16.ofNat (index + if c.isInstance then 1 else 0) ∧ type = p.slotType) ∨
    ∃ owner, c.function.owner = some owner ∧ c.isInstance ∧ slot = 0 ∧ type = c.receiverType owner
  | .field _ holder f =>
    ∃ name, c.registry.field? holder.valueType.hash name = some f ∧ d.make (.field holder name)
  | .staticField _ f =>
    ∃ owner name, c.registry.field? owner name = some f ∧ d.make (.staticField owner name)
  | .element _ array index type =>
    ∃ e, c.registry.arrayElement? array.valueType.hash = some e ∧ type = .plain e ∧
      d.make (.element array index)
  | .captured _ id => c.function.owner = some id.owner ∧ d.make (.captured id)
  | .literal _ l => d.make (.literal l)
  | .binary _ op lhs rhs type =>
    type = (if op.isComparison then .plain .bool else lhs.valueType) ∧ d.make (.binary op lhs rhs)
  | .unary _ op operand type => type = operand.valueType ∧ d.make (.unary op operand)
  | .call _ f args =>
    ∃ function, c.registry.function? function = some f ∧ f.kind ≠ .constructor ∧ f.isStatic ∧
      args.length = f.params.length ∧ d.make (.call function none args)
  | .callOn _ f receiver args =>
    ∃ function, c.registry.function? function = some f ∧ f.kind ≠ .constructor ∧
      f.isStatic = false ∧ args.length = f.params.length ∧
      c.registry.assignable receiver.valueType.hash (f.owner.getD .empty) ∧
      d.make (.call function (some receiver) args)
  | .construct _ f owner args =>
    ∃ function, c.registry.function? function = some f ∧ f.kind = .constructor ∧
      f.owner = some owner ∧ args.length = f.params.length ∧ d.make (.construct function args)
  | .newArray _ type length => d.make (.newArray type length)
  | .arrayLength _ array => d.make (.arrayLength array)
  | .converted _ source k =>
    ∃ target, c.registry.resolve source.valueType.hash target.dereferenced.hash = .ok k ∧
      d.make (.convert source target)

theorem Made.checked (h : c.Made d locals s) : c.Checked d locals s := by
  cases h with
  | declared h => exact h
  | @factory f _ h hmake _ =>
    cases f with
    | argument index =>
      obtain ⟨p, hp, rfl⟩ := argument_ok h
      exact .inl ⟨index, p, hp, rfl, rfl⟩
    | this =>
      obtain ⟨owner, howner, hinst, rfl⟩ := this_ok h
      exact .inr ⟨owner, howner, hinst, rfl, rfl⟩
    | literal l =>
      cases h
      exact hmake
    | field holder name =>
      obtain ⟨-, f, hf, -, rfl⟩ := field_ok h
      exact ⟨name, hf, hmake⟩
    | staticField owner name =>
      obtain ⟨f, hf, -, rfl⟩ := staticField_ok h
      exact ⟨owner, name, hf, hmake⟩
    | element array index =>
      obtain ⟨-, -, e, he, -, rfl⟩ := element_ok h
      exact ⟨e, he, rfl, hmake⟩
    | captured id =>
      obtain ⟨howner, rfl⟩ := captured_ok h
      exact ⟨howner, hmake⟩
    | binary op lhs rhs =>
      obtain ⟨-, -, -, -, rfl⟩ := binary_ok h
      exact ⟨rfl, hmake⟩
    | unary op operand =>
      obtain ⟨-, -, rfl⟩ := unary_ok h
      exact ⟨rfl, hmake⟩
    | call function receiver args =>
      obtain ⟨f, hf, hkind, hargs, ⟨x, rfl, hstat, hrecv, rfl⟩ | ⟨rfl, hstat, rfl⟩⟩ := call_ok h
      · exact ⟨function, hf, hkind, hstat, (checkArguments_ok hargs).1, (checkReceiver_ok hrecv).2,
          hmake⟩
      · exact ⟨function, hf, hkind, hstat, (checkArguments_ok hargs).1, hmake⟩
    | construct function args =>
      obtain ⟨f, owner, hf, hkind, howner, hargs, rfl⟩ := construct_ok h
      exact ⟨function, hf, hkind, howner, (checkArguments_ok hargs).1, hmake⟩
    | newArray type length =>
      obtain ⟨-, -, -, rfl⟩ := newArray_ok h
      exact hmake
    | arrayLength array =>
      obtain ⟨-, rfl⟩ := arrayLength_ok h
      exact hmake
    | convert source target =>
      obtain ⟨-, k, hk, rfl⟩ := convert_ok h
      exact ⟨target, hk, hmake⟩

end Setting

end StackCode

import StackCode.Proofs.AddressSteps

/-!
# What calls return

A statement that returns a value loads the value, whatever the function declares. So a function that
is declared to return an address returns what is behind it. The caller goes by the declaration: it
takes the result for an address and loads through it, which fails.
-/

namespace StackCode

/-- Values hold no addresses. Places need not be there. -/
def Regime.sealed : Regime where
  free _ := False
  strict := False
  heap _ _ h := h.elim

theorem Regime.Plain.ne_address {v : Value} (h : Regime.sealed.Plain v) (a : Address) :
    v ≠ .address a := by
  rintro rfl
  exact h.within.root

/-! ### The caller's side -/

/-- An instruction that loads through an address. -/
def Instr.loadsThrough (i : Instr) : Prop := i.op = .loadObject ∨ ∃ w, i.op = .loadIndirect w

namespace Exec

variable {p : Program} {s : State} {f g : Frame} {rest : List Frame} {i : Instr} {v : Value}
  {vs : List Value}

theorem step_return (hs : s.frames = f :: g :: rest) (hresume : f.resume = .caller)
    (hi : f.method.fetch? f.offset = some i) (hop : i.op = .ret) (hstack : f.stack = v :: vs)
    (hv : v.isVoid = false) :
    ∃ t, step.exec p s = (.ok .running, t) ∧ t.frames = { g with stack := v :: g.stack } ::
      rest := by
  have hyields : Yields p s step
      (fun progress t => progress = .running ∧ t.frames = { g with stack := v :: g.stack } :: rest)
      fun _ _ => False := by
    refine yields_step_of_ret hs hi hop hstack ?_
    rw [s.moved_eq hs]
    refine yields_leave rfl (by simp [hresume]) (fun ws hws => ⟨rfl, ?_⟩) fun e he => ?_
    · rw [hresume] at hws
      cases hws
      rw [hv]
      rfl
    · rw [hresume] at he
      cases he
  rcases hout : step.exec p s with ⟨e | progress, t⟩
  · exact (hyields.error e t hout).elim
  · obtain ⟨rfl, ht⟩ := hyields.ok progress t hout
    exact ⟨t, rfl, ht⟩

/-- What is no address cannot be loaded through. -/
theorem step_loadsThrough (hs : s.frames = f :: rest) (hi : f.method.fetch? f.offset = some i)
    (hload : i.loadsThrough) (hstack : f.stack = v :: vs) (hv : ∀ a, v ≠ .address a) :
    (step.exec p s).1 = .error (.mismatch "address" v) := by
  have haddr : v.address? = .error (.mismatch "address" v) := by
    cases v with
    | address a => exact absurd rfl (hv a)
    | _ => rfl
  have haction : i.action p f.method s.heap rest.length [v] = .error (.mismatch "address" v) := by
    have haddr : ([v].getD 0 .void).address? = .error (.mismatch "address" v) := haddr
    unfold Instr.action
    rcases hload with hop | ⟨w, hop⟩
    · rw [hop]
      dsimp only
      rw [haddr]
      rfl
    · rw [hop]
      dsimp only
      rw [haddr]
      rfl
  have hops : i.pops = 1 ∧ i.op ≠ .ret ∧ i.op ≠ .retVoid := by
    unfold Instr.pops
    rcases hload with hop | ⟨w, hop⟩ <;> simp [hop]
  have hyields : Yields p s step (fun _ _ => False) fun e _ => e = .mismatch "address" v := by
    have hstack : f.stack = [v] ++ vs := hstack
    refine yields_step hs hi (fun _ _ _ _ h => h) hops.2.1 hops.2.2 hstack hops.1.symm
      (fun a ha => ?_) fun e he => ?_
    · rw [haction] at ha
      cases ha
    · rw [haction] at he
      cases he
      rfl
  rcases hout : step.exec p s with ⟨e | progress, t⟩
  · rw [hyields.error e t hout]
  · exact (hyields.ok progress t hout).elim

variable {bottom : Method} {j : Instr}

/-- A caller that loads through what a method returns fails. -/
theorem caller_mismatch (hs : (Regime.sealed.meaning p.registry).Expects p bottom [] s)
    (hframes : s.frames = f :: g :: rest) (hresume : f.resume = .caller)
    (hi : f.method.fetch? f.offset = some i) (hop : i.op = .ret)
    (hj : g.method.fetch? g.offset = some j) (hload : j.loadsThrough) :
    ∃ t v, step.exec p s = (.ok .running, t) ∧
    (step.exec p t).1 = .error (.mismatch "address" v) := by
  obtain ⟨v, vs, hstack, hv⟩ := Regime.exists_returned hs hframes hi hop
  obtain ⟨t, hstep, ht⟩ := step_return (p := p) hframes hresume hi hop hstack hv.isVoid
  exact ⟨t, v, hstep, step_loadsThrough ht hj hload rfl hv.ne_address⟩

end Exec

theorem Symbol.dataType_of_call {c : Setting} {function : TypeHash} {f : FunctionDecl}
    (hf : c.registry.function? function = some f) {receiver : Option Symbol} {args : List Symbol}
    {x : Symbol} (h : c.call function receiver args = .ok x) : x.dataType = f.returns := by
  obtain ⟨g, hg, -, -, ⟨_, -, -, -, rfl⟩ | ⟨-, -, rfl⟩⟩ := Setting.call_ok h
  · cases hf.symm.trans hg
    rfl
  · cases hf.symm.trans hg
    rfl

/-- The code for the value of a by-reference symbol ends with a load through an address. -/
theorem Code.exists_load {r : Registry} {x : Symbol} (href : x.dataType.isByRef)
    {ts : List Temporary}
    {xs : List Command} (h : Code r (.load x .value) ts xs) :
    ∃ ys k, xs = ys ++ [Indirect.loadCommand k] := by
  cases h with
  | referred _ _ _ => exact ⟨_, _, rfl⟩
  | value hplain _ =>
    rw [href] at hplain
    cases hplain

namespace Machine

/-- No method that consists of statements returns an address, whatever its function declares. So
result and declaration agree exactly where no address is declared. A symbol for a call has the
declared type, so the value of a call that is declared to return an address is loaded through the
result, and a caller that does this when a method returns to it fails. -/
theorem results_are_no_addresses (m : Machine) (hm : m.Heeds .sealed) (function : TypeHash)
    (args : List Value) (hnative : m.program.natives[function]? = none)
    (hargs : Regime.sealed.Admits m.program function args) (method : Method)
    (hmethod : m.program.methods[function]? = some method)
    (hreturns : method.function.returns.isVoid = false) :
    (∀ fuel v m', m.invoke fuel function args = some (.ok v, m') →
      m'.Heeds .sealed ∧ Regime.sealed.Plain v ∧
        (((∃ a, v = .address a) ↔ method.function.returns.isByRef) ↔
          method.function.returns.isByRef = false)) ∧
    (∀ (c : Setting) receiver operands x, c.registry = m.program.registry →
      c.call function receiver operands = .ok x → x.dataType = method.function.returns ∧
        (method.function.returns.isByRef → ∀ ts xs, Code c.registry (.load x .value) ts xs →
          ∃ ys k, xs = ys ++ [Indirect.loadCommand k])) ∧
    ∀ s s', (Exec.enter function args .host).exec m.program m.state = (.ok (), s) →
      Exec.Reaches m.program s s' → ∀ f g rest i j, s'.frames = f :: g :: rest →
        f.resume = .caller → f.method.fetch? f.offset = some i → i.op = .ret →
          g.method.fetch? g.offset = some j → j.loadsThrough →
            ∃ t v, Exec.step.exec m.program s' = (.ok .running, t) ∧
              (Exec.step.exec m.program t).1 = .error (.mismatch "address" v) := by
  refine ⟨fun fuel v m' h => ?_, fun c receiver operands x hc hx => ?_,
    fun s s' henter hreaches f g rest i j hframes hresume hi hop hj hload => ?_⟩
  · obtain ⟨hm', hresult, -⟩ := hm.invoke hargs hnative h
    obtain ⟨method', hmethod', hv⟩ := hresult v rfl
    cases hmethod.symm.trans hmethod'
    rw [Regime.Returned, if_neg (by simp [hreturns])] at hv
    refine ⟨hm', hv, ?_⟩
    have hno : ¬∃ a, v = .address a := fun ⟨a, ha⟩ => hv.ne_address a ha
    simp [hno]
  · have hfunction := (hm.program.methods function method hmethod).1
    rw [← hc] at hfunction
    have htype := Symbol.dataType_of_call hfunction hx
    exact ⟨htype, fun href ts xs => Code.exists_load (htype ▸ href)⟩
  · obtain ⟨bottom, -, hs⟩ := hm.expects hargs henter
    exact Exec.caller_mismatch (hm.program.governs.reaches hs hreaches) hframes hresume hi hop hj
      hload

end Machine

/-! ### A function that is declared to return an address -/

namespace Tally

/-- A type with a static field to count in. -/
def type : TypeDecl := (TypeDecl.named "Tally" .reference).withField "n" (.plain .int32) true

/-- A function that is declared to return the address of the static field. -/
def place : FunctionDecl := .free "place" [] (DataType.plain .int32).makeByRef

/-- A function that returns the number there. -/
def number : FunctionDecl := .free "number" [] (.plain .int32)

def registry : Registry :=
  Request.registry [.primitives, .type type, .function place, .function number]

def placeScript : List Direction := [.make (.staticField type.hash "n"), .returnValue (some 0)]

def numberScript : List Direction := [.make (.call place.hash none []), .returnValue (some 0)]

def scripts : List (FunctionDecl × List Direction) := [(place, placeScript), (number, numberScript)]

/-- The machine of both functions, of which one loads through what the other returns. -/
def machine : Machine := ⟨.ofScripts registry scripts, .initial⟩

theorem evaluation : registry.VoidFree ∧ Program.Scripted registry scripts .statements ∧
    (∀ e ∈ registry.functions.toList, e.2.kind ≠ .constructor) ∧
    (machine.invoke 10 place.hash []).map Prod.fst = some (.ok (.int32 0)) ∧
    (machine.invoke 10 number.hash []).map Prod.fst =
      some (.error (.typeMismatch "address" "int32")) := by
  decide +kernel

theorem heeds_machine : machine.Heeds .sealed where
  program := by
    obtain ⟨hvoid, hscripts, hconstructors, -⟩ := evaluation
    exact Program.heeds_ofMethods (Registry.registered_of_requests _) hvoid
      (fun m hm => hscripts.ofStatements hm) False.elim
      (.inr fun h f hf => Registry.forall_functions (P :=
        fun _ f => f.kind ≠ .constructor) hconstructors hf)
  kept := Meaning.kept_initial _
  idle := rfl

end Tally

namespace Machine

open Tally

/-- The function that is declared to return an address returns the number behind it, and the
function that loads its value fails. -/
theorem declared_address_is_a_number : machine.Heeds .sealed ∧ place.returns.isByRef ∧
    (∃ m', machine.invoke 10 place.hash [] = some (.ok (.int32 0), m')) ∧
    ∃ m', machine.invoke 10 number.hash [] = some
      (.error (.typeMismatch "address" "int32"), m') := by
  obtain ⟨-, -, -, hplace, hnumber⟩ := evaluation
  obtain ⟨⟨result, m'⟩, hinvoke, rfl⟩ := Option.map_eq_some_iff.mp hplace
  obtain ⟨⟨result', m''⟩, hinvoke', rfl⟩ := Option.map_eq_some_iff.mp hnumber
  exact ⟨heeds_machine, rfl, ⟨m', hinvoke⟩, m'', hinvoke'⟩

/-- What the function returns, and that result and declaration do not agree. -/
theorem place_returns_no_address : ∃ v m', machine.invoke 10 place.hash [] = some (.ok v, m') ∧
    m'.Heeds .sealed ∧ ¬((∃ a, v = .address a) ↔ place.returns.isByRef) := by
  obtain ⟨-, hscripts, -, hplace, -⟩ := evaluation
  have hmethod : machine.program.methods[place.hash]? =
      some (.scripted registry place placeScript) := hscripts.methods (List.mem_cons_self ..)
  obtain ⟨⟨result, m'⟩, hinvoke, rfl⟩ := Option.map_eq_some_iff.mp hplace
  obtain ⟨hresults, -⟩ := results_are_no_addresses machine heeds_machine place.hash []
    (Program.natives_ofMethods _ _ _) (fun m _ n v hv => by simp at hv) _ hmethod rfl
  obtain ⟨hm', -, hagree⟩ := hresults 10 _ m' hinvoke
  exact ⟨_, m', hinvoke, hm', fun h => by cases hagree.mp h⟩

end Machine

end StackCode

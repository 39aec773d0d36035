import StackCode.Proofs.Finished
import StackCode.Proofs.Lifetimes

/-!
# Where the jumps of a scope go

A scope is left for the place right behind its closing, and a loop goes back to the place right
behind its opening. This holds in the finished method, whatever else was done in between: the label
of a jump is fixed when the jump is emitted, and the mark of the label when the scope is opened or
closed.
-/

namespace StackCode

open Emission List Listing Nat LabelTable

variable {segs segs' : List Listing} {op : Opcode} {l n k : Nat} {s : Session}
  {ops : List Operation}
  {m : Method} {p : UInt32} {h : ScopeHandle} {a : Answer} {kind : ScopeKind} {c : Context}

/-! ### Jumps of a listing -/

namespace Listing

/-- At an offset of a listing stands a jump to a label. -/
def Jumps (segs : List Listing) (n : Nat) (op : Opcode) (l : Nat) : Prop :=
  ∃ before after, commands segs.flatten = before ++ ⟨op, .label l⟩ :: after ∧ n = codeSize before

/-- Where the commands of a listing are the first of another, its jumps stand there, too. -/
theorem Jumps.mono (h : Jumps segs n op l) (hsegs : segs.map commands <+: segs'.map commands) :
    Jumps segs' n op l := by
  obtain ⟨before, after, hcmds, hn⟩ := h
  obtain ⟨more, hmore⟩ := hsegs
  refine ⟨before, after ++ more.flatten, ?_, hn⟩
  rw [commands_flatten] at hcmds ⊢
  rw [← hmore, flatten_append, hcmds]
  simp

end Listing

namespace Emitter.Linked

variable {e : Emitter}

theorem offset_eq (h : e.Linked segs) : e.offset = codeSize (Listing.commands segs.flatten) := by
  rw [h.size, cut_length, endOf_code h.encoded]

theorem offset_withMark (h : e.Linked segs) {index : Nat} {st : LabelState}
    (hst : e.labels.labels[index]? = some st) (hpos : st.position = none)
    (hsmall : e.offset < 4294967296) : (e.withMark index st).offset = e.offset := by
  rw [(h.withMark hst hpos hsmall).offset_eq, h.offset_eq, commands_flatten, commands_flatten]
  simp only [map_map, Function.comp_def, commands_patched]

theorem jumps_of_endsIn (h : e.Linked segs) (hop : op.sort = .label)
    (hends : Listing.EndsIn segs ⟨op, .label l⟩) : Listing.Jumps segs (e.offset - 5) op l := by
  obtain ⟨before, xs, hcmds⟩ := hends
  have hflatten : Listing.commands segs.flatten = (before.flatten ++ xs) ++ [⟨op, .label l⟩] := by
    rw [commands_flatten, hcmds]
    simp
  refine ⟨before.flatten ++ xs, [], hflatten, ?_⟩
  rw [h.offset_eq, hflatten, codeSize_append]
  simp [codeSize, Command.size, Opcode.operandSize_of_sort_label hop]

/-- The instruction of a jump holds the position of its label, once that is marked. -/
theorem exists_jump (h : e.Linked segs) (hjumps : Listing.Jumps segs n op l)
    (hmark : e.labels.mark? l = some (some p)) :
    ∃ i ∈ Listing.code segs.flatten, i.offset = n ∧ i.op = op ∧ i.operand = p.toNat := by
  obtain ⟨before, after, hcmds, rfl⟩ := hjumps
  obtain ⟨first, rest, hsplit, rfl, hrest⟩ := map_eq_append_iff.mp hcmds
  obtain ⟨y, last, rfl, hy, -⟩ := map_eq_cons_iff.mp hrest
  have hmem : y ∈ segs.flatten := by
    rw [hsplit]
    simp
  have hlaid := h.holds.laid
  rw [hsplit, code_append] at hlaid
  obtain ⟨s, hs, haims⟩ := h.jumps y hmem l (by rw [hy])
  have hpos : s.position = some p := by
    rw [mark?, hs] at hmark
    exact Option.some.inj hmark
  refine ⟨y.2, mem_map_of_mem hmem, ?_, ?_, ?_⟩
  · rw [hlaid.offset_mid.1]
    refine endOf_code (k := e.constants) fun z hz => h.encoded z ?_
    rw [hsplit]
    exact mem_append_left _ hz
  · rw [(h.encoded y hmem).1, hy]
  · rwa [LabelState.Aims, hpos] at haims

end Emitter.Linked

/-! ### Jumps of a method -/

/-- At an offset of a method stands a jump to a place in the code. -/
structure Method.JumpsAt (m : Method) (n : Nat) (op : Opcode) (target : Nat) : Prop where
  listed : (n, op) ∈ m.chunk.instructions
  fetched : ∃ i, m.fetch? n = some i ∧ i.op = op ∧ i.operand = target

/-- Nothing is open when a body is finished. -/
theorem Context.opened_of_finish (h : c.finish = .ok m) : c.body.scopes.opened = [] := by
  cases hopen : c.body.scopes.opened with
  | nil => rfl
  | cons o rest =>
    unfold finish at h
    simp only [hopen] at h
    cases h

/-- Finishing keeps the instructions of the body. -/
theorem Context.finish_holds (h : c.finish = .ok m) {code : List Instr}
    (hcode : c.chunk.Holds code) :
    ∃ more, m.chunk.Holds (code ++ more) := by
  obtain ⟨-, ⟨-, -, rfl⟩ | ⟨-, rfl⟩⟩ := finish_ok h
  · refine ⟨[⟨endOf 0 code, .retVoid, 0, 0⟩],
      laid_append.mpr ⟨hcode.laid, rfl, ⟨rfl, rfl⟩, trivial⟩, ?_⟩
    rw [flatMap_append, ← hcode.bytes]
    simp [Chunk.writeOp, Chunk.writeByte, Instr.bytes, Instr.operandBytes, Opcode.operandSize]
  · exact ⟨[], by simpa using hcode⟩

namespace Session

/-- A jump to a marked label in a body, and then in the finished method. -/
theorem Inv.jumpsAt (h : s.Inv .free segs) (hfinish : s.context.finish = .ok m)
    (hjumps : Listing.Jumps segs n op l) (hmark : s.body.emitter.labels.mark? l = some (some p)) :
    m.JumpsAt n op p.toNat := by
  have hlinked := h.body.sound.linked
  obtain ⟨i, hi, rfl, rfl, hop⟩ := hlinked.exists_jump hjumps hmark
  obtain ⟨more, hholds⟩ := Context.finish_holds hfinish hlinked.holds
  have hi' := mem_append_left more hi
  refine ⟨?_, i, hholds.fetch hi', rfl, hop⟩
  rw [hholds.instructions]
  exact mem_map_of_mem hi'

end Session

/-! ### Jumps in the course of a run -/

namespace Session

/-- The length of the code after the first `k` operations. -/
def lengthAt (s : Session) (ops : List Operation) (k : Nat) : Nat :=
  (s.upTo ops k).context.chunk.size

/-- A session whose code ends in a jump to a label. -/
def EndsInJump (s : Session) (op : Opcode) (l : Nat) : Prop :=
  ∃ segs, s.Inv .free segs ∧ Listing.EndsIn segs ⟨op, .label l⟩

namespace Course

variable (hs : s.Course ops) (hfinish : (s.performAll ops).context.finish = .ok m)
include hs

/-- The code of a session is at the start of the code at the end. -/
theorem inv_from (hk : k ≤ ops.length) (h : (s.upTo ops k).Inv .free segs) :
    ∃ segs', (s.performAll ops).Inv .free segs' ∧ Listing.Begins segs segs' := by
  rw [← upTo_length]
  have hlater : ∀ n, k ≤ n → n ≤ ops.length →
      ∃ segs', (s.upTo ops n).Inv .free segs' ∧ Listing.Begins segs segs' := by
    intro n hkn
    induction n, hkn using le_induction with
    | base => exact fun _ => ⟨segs, h, prefix_refl _⟩
    | succ n hkn ih =>
      intro hn
      obtain ⟨segs₁, hinv, hsegs⟩ := ih (le_of_succ_le hn)
      have hop : ops[n]? = some ops[n] := getElem?_eq_getElem hn
      obtain ⟨segs₂, hinv', hsegs', -⟩ := hinv.step
        ⟨_, permits_upTo hs.permits hop, Discipline.free_allows _, upTo_succ hop⟩
      exact ⟨segs₂, hinv', hsegs.trans hsegs'⟩
  exact hlater _ hk (le_refl _)

include hfinish

/-- A jump that was the last instruction at some time goes to where its label was marked at another
time. -/
theorem jumpsAt {j : Nat} (hk : k ≤ ops.length) (hop : op.sort = .label)
    (hends : (s.upTo ops k).EndsInJump op l) (hj : j ≤ ops.length)
    (hmark : (s.upTo ops j).body.emitter.labels.mark? l = some (some p)) :
    m.JumpsAt (s.lengthAt ops k - 5) op p.toNat := by
  obtain ⟨segs, hinv, hends⟩ := hends
  have hjumps := hinv.body.sound.linked.jumps_of_endsIn hop hends
  obtain ⟨segs', hinv', hsegs⟩ := hs.inv_from hk hinv
  refine hinv'.jumpsAt hfinish (hjumps.mono hsegs) ?_
  rw [← upTo_length]
  exact hs.induction (P := fun t => t.body.emitter.labels.mark? l = some (some p))
    (fun _ _ _ _ _ hmarks ht => hmarks l p ht) hj (le_refl _) hmark

end Course

/-! ### What the operations on scopes emit and mark -/

variable {b : Body} {l : Label} {x : Symbol}

theorem Inv.with_body (hs : s.Inv .free segs) (hproper : b.Proper s.setting .free s.labels segs')
    (hlocs : s.body.locals.toList <+: b.locals.toList) :
    Inv .free { s with context := ⟨s.setting, b⟩ } segs' :=
  ⟨hproper, fun y hy => (hs.symbols y hy).mono hlocs⟩

theorem Inv.jump (hs : s.Inv .free segs) (hjump : (Emission.jump l).outcome s.setting s.body =
    (.ok (), b)) :
    EndsInJump { s with context := ⟨s.setting, b⟩ } .jump l.index ∧
      b.emitter.offset = s.body.emitter.offset + 5 := by
  rcases jump_cases l s.setting s.body with ⟨e, hout⟩ | ⟨e, hout, hemit⟩
  · rw [hjump] at hout
    cases hout
  · rw [hjump] at hout
    cases hout
    obtain ⟨seg, hcmds, hproper⟩ :=
      hs.body.gains (.jump (.refl _) (.refl _) straight_nil rfl hemit .jump)
    refine ⟨⟨_, hs.with_body hproper (prefix_refl _), endsIn_snoc hcmds⟩, ?_⟩
    rw [hproper.sound.linked.offset_eq, hs.body.sound.linked.offset_eq, flatten_append,
      commands_append, codeSize_append, flatten_singleton, hcmds]
    rfl

end Session

namespace Session

variable {op : Operation}

theorem perform_ok (hok : (s.perform op).1 = .ok a) :
    ∃ b, op.emission.outcome s.setting s.body = (.ok a, b) ∧
      (s.perform op).2 = { s with context := ⟨s.setting, b⟩ }.keep a := by
  rw [perform_eq] at hok ⊢
  rcases hout : op.emission.outcome s.setting s.body with ⟨e | a', b⟩ <;> rw [hout] at hok
  · cases hok
  · cases hok
    exact ⟨b, rfl, rfl⟩

theorem perform_done {x : Emission Unit} (hop : op.emission = (do x; return Answer.done))
    (hok : (s.perform op).1 = .ok a) :
    ∃ b, x.outcome s.setting s.body = (.ok (), b) ∧
    (s.perform op).2 = { s with context := ⟨s.setting, b⟩ } := by
  obtain ⟨b, hout, hperf⟩ := perform_ok hok
  rw [hop] at hout
  obtain ⟨rfl, hx⟩ := Operation.done_ok hout
  exact ⟨b, hx, hperf⟩

section

variable (hs : s.Inv .free segs)
include hs

theorem Inv.breakScope (hok : (s.perform (.breakScope h)).1 = .ok a) :
    ∃ o, s.body.scopes.find h.id = .ok o ∧
      (s.perform (.breakScope h)).2.EndsInJump .jump o.exit.index ∧
      (s.perform (.breakScope h)).2.body.emitter.offset = s.body.emitter.offset + 5 := by
  obtain ⟨b, hout, hperf⟩ := perform_done rfl hok
  obtain ⟨o, -, hfind, hjump⟩ := breakScope_ok hout
  rw [hperf]
  exact ⟨o, hfind, hs.jump hjump⟩

theorem Inv.continueLoop (hok : (s.perform (.continueLoop h)).1 = .ok a) :
    ∃ o, s.body.scopes.find h.id = .ok o ∧ h.kind = .loop ∧
      (s.perform (.continueLoop h)).2.EndsInJump .jump o.entry.index ∧
      (s.perform (.continueLoop h)).2.body.emitter.offset = s.body.emitter.offset + 5 := by
  obtain ⟨b, hout, hperf⟩ := perform_done rfl hok
  obtain ⟨o, -, hfind, hkind, hjump⟩ := continueLoop_ok hout
  rw [hperf]
  exact ⟨o, hfind, hkind, hs.jump hjump⟩

theorem Inv.breakIfFalse {x : Symbol} (hpermit : s.Permits (.breakIfFalse h x))
    (hok : (s.perform (.breakIfFalse h x)).1 = .ok a) :
    ∃ o, s.body.scopes.find h.id = .ok o ∧
      (s.perform (.breakIfFalse h x)).2.EndsInJump (.jumpIf false) o.exit.index := by
  obtain ⟨b, hout, hperf⟩ := perform_done rfl hok
  rw [hperf]
  rcases breakIfFalse_cases hs.body.sound h x with ⟨e, b', hcase, -⟩ |
      ⟨o, b', ts, xs, e, hfind, hcase, hctx, hbool, hcode, hgrows, hemit, hjump⟩
  · rw [hout] at hcase
    cases hcase
  · rw [hout] at hcase
    cases hcase
    have hmade := hs.symbols x ((hpermit.symbols x (by simp [Operation.symbols])).resolve_right
      fun hne => hne hctx)
    obtain ⟨seg, hcmds, hproper⟩ := hs.body.gains (.jump hgrows hemit hcode.straight rfl hjump
      (.guard hmade trivial hbool hcode))
    refine ⟨o, hfind, _, hs.with_body ⟨hproper.sound.release _, hproper.scopes⟩ hgrows.locals, ?_⟩
    exact endsIn_snoc hcmds

/-- A scope that is opened: its guard is the last instruction, and the entry of a loop is marked
behind it. -/
theorem Inv.openScope {condition : Option Symbol} (hpermit : s.Permits (.openScope kind condition))
    (hok : (s.perform (.openScope kind condition)).1 = .ok (.scope h)) :
    (condition.isSome → (s.perform (.openScope kind condition)).2.EndsInJump (.jumpIf false)
      (s.body.emitter.labels.labels.size + 1)) ∧
    (kind = .loop → ∃ p : UInt32,
      (s.perform (.openScope kind condition)).2.body.emitter.labels.mark?
        s.body.emitter.labels.labels.size = some (some p) ∧
      p.toNat = (s.perform (.openScope kind condition)).2.body.emitter.offset) := by
  have hmade : ∀ x ∈ condition, x.context = s.setting.id → s.setting.Made .free s.body.locals x :=
    fun x hx hctx => hs.symbols x ((hpermit.symbols x
      (by simpa [Operation.symbols] using hx)).resolve_right fun hne => hne hctx)
  obtain ⟨b, hout, hperf⟩ := perform_ok hok
  obtain ⟨handle, b', hopen, ha⟩ := bind_ok hout
  cases ha
  rw [hperf]
  rcases openScope_cases hs.body.sound kind hmade (fun _ _ => trivial) with
    ⟨e, b', hcase, -⟩ | ⟨b', hcase, ⟨p, fixups, henter, hp⟩, segs', hsound, -, hguard⟩
  · rw [hopen] at hcase
    cases hcase
  rw [hopen] at hcase
  cases hcase
  refine ⟨fun hguarded => ?_, fun hloop => ⟨p, ?_, hp hloop⟩⟩
  · refine ⟨segs', ⟨⟨(hsound.release _).withScopes _, ?_⟩, ?_⟩, hguard hguarded⟩
    · show b'.emitter.labels.Scoped (_ :: s.body.scopes.opened) s.labels
      rw [henter.labels, ← hs.body.sound.context]
      exact hs.body.scopes.push p fixups _ kind
    · exact fun y hy => (hs.symbols y hy).mono henter.locals
  · show b'.emitter.labels.mark? _ = _
    rw [henter.labels, mark?, opened_entry]
    rfl

/-- A scope that is closed: its exit is marked at the end of the code, and a loop has jumped back to
its entry. -/
theorem Inv.closeScope (hok : (s.perform (.closeScope h)).1 = .ok a) :
    ∃ o rest, s.body.scopes.opened = o :: rest ∧
      (∃ p : UInt32, (s.perform (.closeScope h)).2.body.emitter.labels.mark? o.exit.index =
        some (some p) ∧ p.toNat = (s.perform (.closeScope h)).2.body.emitter.offset) ∧
      (o.kind = .loop → (s.perform (.closeScope h)).2.EndsInJump .jump o.entry.index ∧
        (s.perform (.closeScope h)).2.body.emitter.offset = s.body.emitter.offset + 5) := by
  obtain ⟨b, hout, hperf⟩ := perform_done rfl hok
  rw [hperf]
  obtain ⟨o, rest, bytes, segs', st, hopen, ⟨hlen, hsound, -, hloop⟩, hst, hpos, hsmall, rfl⟩ :=
    closeScope_done hs.body.sound hs.body.scopes hout
  have hmark := hsound.mark hst hpos hsmall
  have hcmds : (segs'.map (Listing.patched st.fixups (UInt32.ofNat
      (s.body.emitter.write bytes).offset))).map Listing.commands = segs'.map Listing.commands := by
    simp only [map_map, Function.comp_def, commands_patched]
  have hoff := hsound.linked.offset_withMark hst hpos hsmall
  refine ⟨o, rest, hopen, ⟨UInt32.ofNat (s.body.emitter.write bytes).offset, ?_, ?_⟩,
    fun hkind => ?_⟩
  · refine (mark?_set _ hst _).trans ?_
    rw [if_pos rfl]
  · rw [UInt32.toNat_ofNat', mod_eq_of_lt hsmall]
    exact hoff.symm
  · refine ⟨⟨_, hs.with_body ⟨hmark.withScopes _, ?_⟩ (prefix_refl _), (hloop hkind).congr hcmds⟩,
      ?_⟩
    · show LabelTable.Scoped _ s.body.scopes.opened.tail s.labels
      have hscopes : s.body.emitter.labels.Scoped (o :: rest) s.labels := hopen ▸ hs.body.scopes
      rw [hopen]
      exact hscopes.tail.mark hst fun o' ho => hscopes.exit_ne ho
    · refine hoff.trans ?_
      rw [Emitter.write, Emitter.offset, Emitter.offset, Chunk.size_writeBytes, hlen, hkind]
      rfl

end

end Session

/-! ### The jumps of a scope -/

namespace Session

variable {condition : Option Symbol} {i j : Nat}

/-- Where the jumps of a scope go that is opened at time `i` and closed at time `j`: out of it to
the end of the code as it is closed, and back to the end of the code as it is opened. -/
structure ReachesEnds (s : Session) (ops : List Operation) (m : Method) (kind : ScopeKind)
    (condition : Option Symbol) (h : ScopeHandle) (i j : Nat) : Prop where
  guard : condition.isSome → m.JumpsAt (s.lengthAt ops (i + 1) - 5) (.jumpIf false)
    (s.lengthAt ops (j + 1))
  breaks : ∀ k, s.Does ops k (.breakScope h) .done →
    m.JumpsAt (s.lengthAt ops k) .jump (s.lengthAt ops (j + 1))
  breaksIfFalse : ∀ k x, s.Does ops k (.breakIfFalse h x) .done →
    m.JumpsAt (s.lengthAt ops (k + 1) - 5) (.jumpIf false) (s.lengthAt ops (j + 1))
  continues : ∀ k, s.Does ops k (.continueLoop h) .done →
    m.JumpsAt (s.lengthAt ops k) .jump (s.lengthAt ops (i + 1))
  back : kind = .loop → m.JumpsAt (s.lengthAt ops j) .jump (s.lengthAt ops (i + 1))

namespace Course

variable (hs : s.Course ops)
include hs

theorem marked_exit (he : s.Encloses ops kind condition h i j) :
    ∃ p : UInt32, (s.upTo ops (j + 1)).body.emitter.labels.mark?
      (s.openedAt ops kind i).exit.index =
      some (some p) ∧ p.toNat = s.lengthAt ops (j + 1) := by
  obtain ⟨⟨segs, hinv⟩, -⟩ := hs.inv_upTo (le_of_lt he.closes.lt)
  obtain ⟨o, rest, hopen, hmark, -⟩ := hinv.closeScope he.closes.answer
  rw [(hs.closing_of_encloses he).innermost] at hopen
  obtain ⟨rfl, -⟩ := List.cons.inj hopen
  rwa [← upTo_succ he.closes.operation] at hmark

theorem marked_entry (hopen : s.Does ops i (.openScope .loop condition) (.scope h)) :
    ∃ p : UInt32, (s.upTo ops (i + 1)).body.emitter.labels.mark?
      (s.openedAt ops .loop i).entry.index = some (some p) ∧ p.toNat = s.lengthAt ops (i + 1) := by
  obtain ⟨⟨segs, hinv⟩, -⟩ := hs.inv_upTo (le_of_lt hopen.lt)
  obtain ⟨-, hent⟩ := hinv.openScope (permits_upTo hs.permits hopen.operation) hopen.answer
  rw [← upTo_succ hopen.operation] at hent
  exact hent rfl

/-- The jumps of a scope reach its ends in the finished method. -/
theorem reachesEnds (hfinish : (s.performAll ops).context.finish = .ok m)
    (he : s.Encloses ops kind condition h i j) : s.ReachesEnds ops m kind condition h i j := by
  have hclose := hs.closing_of_encloses he
  obtain ⟨hhandle, -, -⟩ := hs.opens he.opens
  obtain ⟨exit, hexit, hexitAt⟩ := hs.marked_exit he
  have hleaves : ∀ {k op}, k ≤ ops.length → op.sort = .label →
      (s.upTo ops k).EndsInJump op (s.openedAt ops kind i).exit.index →
      m.JumpsAt (s.lengthAt ops k - 5) op (s.lengthAt ops (j + 1)) := fun hk hop hends => by
    rw [← hexitAt]
    exact hs.jumpsAt hfinish hk hop hends he.closes.lt hexit
  have hret : ∀ {k}, kind = .loop → k ≤ ops.length →
      (s.upTo ops k).EndsInJump .jump (s.openedAt ops kind i).entry.index →
      m.JumpsAt (s.lengthAt ops k - 5) .jump (s.lengthAt ops (i + 1)) := fun hloop hk hends => by
    subst hloop
    obtain ⟨entry, hent, hentryAt⟩ := hs.marked_entry he.opens
    rw [← hentryAt]
    exact hs.jumpsAt hfinish hk rfl hends he.opens.lt hent
  refine ⟨fun hguarded => ?_, fun k hk => ?_, fun k x hk => ?_, fun k hk => ?_, fun hloop => ?_⟩
  · obtain ⟨⟨segs, hinv⟩, -⟩ := hs.inv_upTo (le_of_lt he.opens.lt)
    obtain ⟨hguard, -⟩ :=
      hinv.openScope (permits_upTo hs.permits he.opens.operation) he.opens.answer
    rw [← upTo_succ he.opens.operation] at hguard
    exact hleaves he.opens.lt rfl (hguard hguarded)
  · obtain ⟨⟨segs, hinv⟩, -⟩ := hs.inv_upTo (le_of_lt hk.lt)
    obtain ⟨o, hfind, hends, hoff⟩ := hinv.breakScope hk.answer
    rw [← upTo_succ hk.operation] at hends hoff
    obtain ⟨-, rfl⟩ := hs.found he.opens hclose hk (by simp [Operation.scopes]) hfind
    have hat := hleaves hk.lt rfl hends
    rwa [show s.lengthAt ops (k + 1) = s.lengthAt ops k + 5 from hoff, Nat.add_sub_cancel] at hat
  · obtain ⟨⟨segs, hinv⟩, -⟩ := hs.inv_upTo (le_of_lt hk.lt)
    obtain ⟨o, hfind, hends⟩ := hinv.breakIfFalse (permits_upTo hs.permits hk.operation) hk.answer
    rw [← upTo_succ hk.operation] at hends
    obtain ⟨-, rfl⟩ := hs.found he.opens hclose hk (by simp [Operation.scopes]) hfind
    exact hleaves hk.lt rfl hends
  · obtain ⟨⟨segs, hinv⟩, -⟩ := hs.inv_upTo (le_of_lt hk.lt)
    obtain ⟨o, hfind, hkind, hends, hoff⟩ := hinv.continueLoop hk.answer
    rw [← upTo_succ hk.operation] at hends hoff
    obtain ⟨-, rfl⟩ := hs.found he.opens hclose hk (by simp [Operation.scopes]) hfind
    rw [hhandle] at hkind
    have hat := hret hkind hk.lt hends
    rwa [show s.lengthAt ops (k + 1) = s.lengthAt ops k + 5 from hoff, Nat.add_sub_cancel] at hat
  · obtain ⟨⟨segs, hinv⟩, -⟩ := hs.inv_upTo (le_of_lt he.closes.lt)
    obtain ⟨o, rest, hopen, -, hback⟩ := hinv.closeScope he.closes.answer
    rw [hclose.innermost] at hopen
    obtain ⟨rfl, -⟩ := List.cons.inj hopen
    obtain ⟨hends, hoff⟩ := hback hloop
    rw [← upTo_succ he.closes.operation] at hends hoff
    have hat := hret hloop he.closes.lt hends
    rwa [show s.lengthAt ops (j + 1) = s.lengthAt ops j + 5 from hoff, Nat.add_sub_cancel] at hat

end Course

/-- Whatever is done with a context and finished: every scope that was opened was closed, the jumps
out of it go to the place right behind its closing and the jumps back to the place right behind its
opening, and of two scopes one lies inside the other or behind it. -/
theorem scope_jumps_reach_their_ends {id : ContextId} {registry : Registry}
    {function : FunctionDecl}
    {options : EmitOptions} (hstart : s = start id registry function options)
    (hpermits : s.PermitsAll ops) (hfinish : (s.performAll ops).context.finish = .ok m) :
    (∀ kind condition h i, s.Does ops i (.openScope kind condition) (.scope h) →
      ∃ j, i < j ∧ s.Encloses ops kind condition h i j) ∧
    (∀ kind condition h i j, s.Encloses ops kind condition h i j →
      s.ReachesEnds ops m kind condition h i j) ∧
    ∀ kind condition h i j kind' condition' h' i' j', s.Encloses ops kind condition h i j →
      s.Encloses ops kind' condition' h' i' j' → i < i' → j < i' ∨ j' < j := by
  subst hstart
  have hs : (start id registry function options).Course ops :=
    ⟨⟨[], inv_start id registry function options .free⟩, numbered_start .., hpermits⟩
  refine ⟨fun kind condition h i hopen => ?_, fun kind condition h i j he =>
    hs.reachesEnds hfinish he,
    fun kind condition h i j kind' condition' h' i' j' he he' => hs.nested he he'⟩
  rcases hs.opened_or_closing_with hopen hopen.lt (Nat.le_refl _) with hstays | ⟨j, hclosing⟩
  · -- nothing is open when a method is finished
    have hmem := hstays ops.length hopen.lt (Nat.le_refl _)
    rw [upTo_length] at hmem
    have hnone : ((start id registry function options).performAll ops).body.scopes.opened = [] :=
      Context.opened_of_finish hfinish
    rw [hnone] at hmem
    cases hmem
  · exact ⟨j, hclosing.le, hopen, hclosing.closes⟩

end Session

/-! A loop with a branch in it, from which the loop is left. -/

namespace Rounds

def empty : Session := .start ⟨0⟩ .empty (.staticMethod ⟨1⟩ "f" [] .void) .default

def condition : Symbol := .literal ⟨0⟩ (.bool true)

def loop : ScopeHandle := ⟨⟨0⟩, 0, .loop⟩
def branch : ScopeHandle := ⟨⟨0⟩, 1, .branch⟩

/-- A loop with a branch in it that leaves the loop. -/
def operations : List Operation :=
  [.make (.literal (.bool true)), .openScope .loop (some condition),
    .openScope .branch (some condition), .breakScope loop, .closeScope branch, .continueLoop loop,
    .closeScope loop]

theorem permitted : empty.PermitsAll operations :=
  ⟨⟨nofun, nofun, nofun⟩, ⟨fun _ hx => .inl hx, nofun, nofun⟩, ⟨fun _ hx => .inl hx, nofun, nofun⟩,
    ⟨nofun, nofun, by decide +kernel⟩, ⟨nofun, nofun, by decide +kernel⟩,
    ⟨nofun, nofun, by decide +kernel⟩, ⟨nofun, nofun, by decide +kernel⟩, trivial⟩

/-- Whether an answer is a given one, for the answers that hold no symbol. -/
def agrees : Answer → Answer → Bool
  | .done, .done => true
  | .scope h, .scope h' => h = h'
  | _, _ => false

theorem eq_of_agrees {a' : Answer} (h : agrees a a' = true) : a' = a := by
  cases a <;> cases a' <;> simp_all [agrees]

theorem does_of_agrees {op : Operation} (hop : operations[k]? = some op)
    (h : ((empty.upTo operations k).perform op).1.toOption.any (agrees a) = true) :
    empty.Does operations k op a := by
  refine ⟨hop, ?_⟩
  cases hout : ((empty.upTo operations k).perform op).1 with
  | error e => rw [hout] at h; cases h
  | ok a' =>
    rw [hout] at h
    rw [eq_of_agrees (a := a) h]

/-- The break and the guard leave the loop, and the branch lies inside. -/
theorem loop_is_left : ∃ m, (empty.performAll operations).context.finish = .ok m ∧
    m.JumpsAt 12 .jump 27 ∧ m.JumpsAt 1 (.jumpIf false) 27 ∧ m.JumpsAt 17 .jump 6 ∧
    m.JumpsAt 22 .jump 6 ∧ m.JumpsAt 7 (.jumpIf false) 17 := by
  obtain ⟨m, hfinish⟩ := Context.exists_finish (c := (empty.performAll operations).context)
    (by decide +kernel) (by decide +kernel) (by decide +kernel)
  obtain ⟨-, hends, -⟩ := Session.scope_jumps_reach_their_ends (s := empty) rfl permitted hfinish
  have hlengths : (List.range 8).map (empty.lengthAt operations) =
    [0, 0, 6, 12, 17, 17, 22, 27] := by
    decide +kernel
  have hloop : empty.ReachesEnds operations m .loop (some condition) loop 1 6 :=
    hends _ _ _ _ _ ⟨does_of_agrees rfl (by decide +kernel), does_of_agrees rfl (by decide +kernel)⟩
  have hbranch : empty.ReachesEnds operations m .branch (some condition) branch 2 4 :=
    hends _ _ _ _ _ ⟨does_of_agrees rfl (by decide +kernel), does_of_agrees rfl (by decide +kernel)⟩
  have hbreak := hloop.breaks 3 (does_of_agrees rfl (by decide +kernel))
  have hcontinue := hloop.continues 5 (does_of_agrees rfl (by decide +kernel))
  have hguards := And.intro (hloop.guard rfl) (hbranch.guard rfl)
  have hback := hloop.back rfl
  simp only [List.range_succ, List.range_zero, List.nil_append, List.cons_append, List.map_cons,
    List.map_nil,
    List.cons.injEq, and_true] at hlengths
  simp only [hlengths] at hbreak hcontinue hguards hback
  exact ⟨m, hfinish, hbreak, hguards.1, hcontinue, hback, hguards.2⟩

end Rounds

end StackCode

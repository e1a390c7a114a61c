import SpatialDb.Lib.Redo
import SpatialDb.Server.ShrinkRun

/-!
# JSET while the file is rewritten

JSET changes a document by what the document is, so loading one that the
written line already has in it can change the document once more, or fail.
`aofshrink` with JSETs is an instance of `Lib.Redo`: the cells are the
documents, and a document is copied when its line is written.  JSETs that each
write one part of a document can be loaded once more.
-/

namespace SpatialDb.Server

open Lib Lib.Redo Option OrdMap

/-! ## Documents -/

section

variable {N G : Type} [LinearOrder N] (lib : ServerLib N G) (cols : Dataset G)

/-- The text of the object under a key and an id. -/
def docAt (i : Bytes × Bytes) : Option Bytes :=
  (lookup cols i).map fun o => geoText lib o.geo

/-- Its fields, none without an object. -/
def fieldsAt (i : Bytes × Bytes) : FieldList :=
  ((lookup cols i).map Object.fields).getD empty

/-- No object is a geometry. -/
def Strings : Prop := ∀ i o, lookup cols i = some o → o.geo.isSpatial = false

variable {lib} {docs : List Bytes} {cols cols' : Dataset G} {i : Bytes × Bytes}

omit [LinearOrder N] in
theorem docAt_eq (cols : Dataset G) (i : Bytes × Bytes) : docAt lib cols i =
    ((lookup cols i).map fun o => (o.geo, o.fields)).map fun p => geoText lib p.1 := by
  rw [map_map]
  rfl

private theorem fieldsAt_eq (cols : Dataset G) (i : Bytes × Bytes) : fieldsAt cols i =
    (((lookup cols i).map fun o => (o.geo, o.fields)).map Prod.snd).getD empty := by
  rw [map_map]
  rfl

omit [LinearOrder N] in
theorem docAt_of_view (h : view cols i = view cols' i) : docAt lib cols i = docAt lib cols' i := by
  rw [docAt_eq, docAt_eq, lookup_of_view h]

theorem fieldsAt_of_view (h : view cols i = view cols' i) : fieldsAt cols i = fieldsAt cols' i := by
  rw [fieldsAt_eq, fieldsAt_eq, lookup_of_view h]

omit [LinearOrder N] in
/-- A text and the fields determine a cell that is not a geometry. -/
theorem view_of_docAt (h : Strings cols) (h' : Strings cols')
    (hdoc : docAt lib cols i = docAt lib cols' i) (hfields : fieldsAt cols i = fieldsAt cols' i) :
    view cols i = view cols' i := by
  have hgeo : ∀ geo : Geometry G, geo.isSpatial = false → geo = .string (geoText lib geo) := by
    intro geo hgeo
    cases geo with
    | spatial g => cases hgeo
    | string text => rfl
  revert hdoc hfields
  rw [docAt, docAt, fieldsAt, fieldsAt, view, view]
  cases ho : lookup cols i with
  | none =>
    cases ho' : lookup cols' i with
    | none => exact fun _ _ => rfl
    | some o' =>
      intro hdoc
      cases hdoc
  | some o =>
    cases ho' : lookup cols' i with
    | none =>
      intro hdoc
      cases hdoc
    | some o' =>
      intro hdoc hfields
      have hdoc : geoText lib o.geo = geoText lib o'.geo := some.inj hdoc
      have hfields : o.fields = o'.fields := hfields
      rw [map_some, map_some, cellOf, cellOf, hgeo o.geo (h i o ho),
        hgeo o'.geo (h' i o' ho'), hdoc, hfields]

/-- Cells with no object or with a cell of another dataset without geometries. -/
theorem strings_of_view (h : ∀ i, view cols i = none ∨ ∃ cols' : Dataset G,
    Strings cols' ∧ view cols i = view cols' i) : Strings cols := by
  intro i o ho
  have hview : view cols i = some (cellOf o) := by rw [view, ho]; rfl
  rcases h i with hnone | ⟨cols', hstrings, hsame⟩
  · rw [hview] at hnone
    cases hnone
  have hpair := lookup_of_view hsame
  rw [ho, map_some, eq_comm, map_eq_some_iff] at hpair
  obtain ⟨o', ho', heq⟩ := hpair
  have hgeo : o'.geo = o.geo := congrArg Prod.fst heq
  rw [← hgeo]
  exact hstrings i o' ho'

private theorem goodData_iff : GoodData lib docs cols ↔
    ∀ i, GoodList lib.toFieldLib docs (fieldsAt cols i) := by
  constructor
  · intro h i
    rw [fieldsAt]
    cases ho : lookup cols i with
    | none => exact fun name sv hget => nomatch hget
    | some o => exact h i o ho
  · intro h i o ho
    have hi := h i
    rw [fieldsAt, ho] at hi
    exact hi

/-! ## JSET on a document -/

variable {doc : Option Bytes}

variable (lib) (a : JsetArgs)

/-- The library's set function, as JSET calls it. -/
def JsetArgs.set (json : Bytes) : Except Bytes Bytes :=
  if a.raw then lib.sjsonSetRaw json a.path a.val else lib.sjsonSet json a.path a.val

/-- JSET on a document, or on none; nothing when the library refuses. -/
def jsetDoc (doc : Option Bytes) : Option (Option Bytes) :=
  (a.set lib (doc.getD [])).toOption.map some

/-- The document that a JSET is for. -/
def JsetArgs.cell : Bytes × Bytes := (a.key, a.id)

/-- A JSET that went through: it changed one document. -/
structure JsetDone (a : JsetArgs) (doc : Option Bytes) (s s' : ServerState G) : Prop where
  hooks : s'.hooks = s.hooks
  docs : docAt lib s'.cols = Function.update (docAt lib s.cols) a.cell doc
  fields : fieldsAt s'.cols = fieldsAt s.cols
  objects : ∀ i o, lookup s'.cols i = some o → lookup s.cols i = some o ∨
    o.geo.isSpatial = false ∧ o.expires = 0 ∧ o.fields = fieldsAt s.cols i

variable {lib} {env : Env} {s s' : ServerState G} {args : List Bytes} {a : JsetArgs}

omit [LinearOrder N] in
theorem JsetDone.strings (h : JsetDone lib a doc s s') (hstrings : Strings s.cols) :
    Strings s'.cols := by
  intro i o ho
  rcases h.objects i o ho with hold | hnew
  · exact hstrings i o hold
  · exact hnew.1

theorem JsetDone.printsAll {slib : ShrinkLib G} (h : JsetDone lib a doc s s')
    (hback : PrintsAll lib slib s.cols) : PrintsAll lib slib s'.cols := by
  intro i o ho
  rcases h.objects i o ho with hold | ⟨hgeo, hexpires, hfields⟩
  · exact hback i o hold
  refine ⟨?_, fun g hg => ?_, fun hne => absurd hexpires hne⟩
  · rw [hfields, fieldsAt]
    cases hold : lookup s.cols i with
    | none => exact List.forall_mem_nil _
    | some o' => exact (hback i o' hold).value
  · rw [hg] at hgeo
    cases hgeo

private theorem cmdJset_eq (env : Env) (hparse : parseJSET args = .ok a) :
    cmdJset lib env s args =
      match a.set lib ((docAt lib s.cols a.cell).getD []) with
      | .error text => retwerr s (.other text)
      | .ok json => storeJSON lib env s a.key a.id (lookup s.cols a.cell)
          ((s.cols.get? a.key).getD empty) json .okText := by
  unfold cmdJset
  rw [hparse]
  dsimp only
  rw [get?_getD]
  rfl

/-- The library refuses: nothing changes. -/
theorem cmdJset_refused (env : Env) (hparse : parseJSET args = .ok a)
    (h : jsetDoc lib a (docAt lib s.cols a.cell) = none) :
    ∃ text, cmdJset lib env s args = (.err (.other text), s) := by
  rw [cmdJset_eq env hparse]
  rw [jsetDoc, map_eq_none_iff] at h
  cases hset : a.set lib ((docAt lib s.cols a.cell).getD []) with
  | error text => exact ⟨text, rfl⟩
  | ok json =>
    rw [hset] at h
    cases h

theorem cmdJset_done (env : Env) (hstrings : Strings s.cols) (hparse : parseJSET args = .ok a)
    (h : jsetDoc lib a (docAt lib s.cols a.cell) = some doc) :
    ∃ reply det s', cmdJset lib env s args = (.ok reply det, s') ∧ det.updated = true ∧
      JsetDone lib a doc s s' := by
  rw [jsetDoc, map_eq_some_iff] at h
  obtain ⟨json, hset, rfl⟩ := h
  have hset : a.set lib ((docAt lib s.cols a.cell).getD []) = .ok json := by
    cases hres : a.set lib ((docAt lib s.cols a.cell).getD []) with
    | error text => rw [hres] at hset; cases hset
    | ok json' => rw [hres] at hset; cases hset; rfl
  have hspatial : ((lookup s.cols a.cell).map fun o => o.geo.isSpatial).getD false = false := by
    cases ho : lookup s.cols a.cell with
    | none => rfl
    | some o => exact hstrings _ o ho
  rw [cmdJset_eq env hparse, hset]
  dsimp only
  rw [storeJSON, hspatial, if_neg Bool.false_ne_true]
  refine ⟨_, _, _, rfl, rfl, rfl, funext fun i => ?_, funext fun i => ?_, fun i o hi => ?_⟩
  · rw [docAt, lookup_put (get?_getD s.cols a.key)]
    split_ifs with hi
    · subst hi
      exact (Function.update_self a.cell (some json) (docAt lib s.cols)).symm
    have hi : i ≠ a.cell := hi
    rw [Function.update_of_ne hi]
    rfl
  · rw [fieldsAt, lookup_put (get?_getD s.cols a.key)]
    split_ifs with hi
    · subst hi
      rfl
    · rfl
  · rw [lookup_put (get?_getD s.cols a.key)] at hi
    split_ifs at hi with heq
    · subst heq
      cases hi
      exact .inr ⟨rfl, rfl, rfl⟩
    · exact .inl hi

end

/-! ## The load of a log of JSETs -/

section Load

variable {N G : Type} [LinearOrder N] (lib : ServerLib N G)

/-- A JSET with arguments that are accepted. -/
def IsJset (args : List Bytes) : Prop :=
  handlerOf (commandName args) = some .jset ∧ ∃ a, parseJSET args = .ok a

/-- The JSETs of a log, each with the document it is for. -/
def jsetOps (log : List (List Bytes)) : List ((Bytes × Bytes) × JsetArgs) :=
  log.filterMap fun args => (parseJSET args).toOption.map fun a => (a.cell, a)

variable {lib} {hlib : HookLib G} {now : Int} {s : ServerState G} {args : List Bytes} {a : JsetArgs}

private theorem jsetOps_append (log log' : List (List Bytes)) :
    jsetOps (log ++ log') = jsetOps log ++ jsetOps log' := List.filterMap_append

theorem jsetOps_singleton (h : parseJSET args = .ok a) : jsetOps [args] = [(a.cell, a)] := by
  rw [jsetOps, List.filterMap_cons, h]
  rfl

private theorem loadCommand_jset_done (hhandler : handlerOf (commandName args) = some .jset)
    (hstrings : Strings s.cols) (hparse : parseJSET args = .ok a)
    (h : jsetDoc lib a (docAt lib s.cols a.cell) = some doc) :
    ∃ s', loadCommand lib hlib now s args = .ok s' ∧ JsetDone lib a doc s s' := by
  obtain ⟨reply, det, s', hcall, -, hdone⟩ := cmdJset_done { out := .null, now } hstrings hparse h
  have hcmd : command lib hlib { out := .null, now } [] s args = (.ok reply det, s') :=
    (command_of_handlerOf lib hlib _ hhandler [] s).trans hcall
  refine ⟨s', ?_, hdone⟩
  rw [loadCommand, hcmd]

/-- **A log of JSETs loads as its operations redo on the documents.** -/
theorem replay_jsets {log : List (List Bytes)} (hlog : ∀ args ∈ log, IsJset args)
    (hne : NoEmpty s.cols) (hstrings : Strings s.cols) {cells : Bytes × Bytes → Option Bytes}
    (h : redoAll (jsetDoc lib) (jsetOps log) (docAt lib s.cols) = some cells) :
    ∃ s', replay lib hlib now log s = .ok s' ∧ NoEmpty s'.cols ∧ Strings s'.cols ∧
      docAt lib s'.cols = cells ∧ fieldsAt s'.cols = fieldsAt s.cols := by
  induction log generalizing s with
  | nil => exact ⟨s, rfl, hne, hstrings, some.inj h, rfl⟩
  | cons args log ih =>
    obtain ⟨hhandler, a, hparse⟩ := hlog args List.mem_cons_self
    have hlog : ∀ args ∈ log, IsJset args := (List.forall_mem_cons.mp hlog).2
    rw [← List.singleton_append, jsetOps_append, jsetOps_singleton hparse,
      List.singleton_append, redoAll] at h
    obtain ⟨doc, hdoc, h⟩ := bind_eq_some_iff.mp h
    obtain ⟨s₁, hload, hdone⟩ : ∃ s₁, loadCommand lib hlib now s args = .ok s₁ ∧
        JsetDone lib a doc s s₁ := loadCommand_jset_done hhandler hstrings hparse hdoc
    rw [← hdone.docs] at h
    obtain ⟨s', hrun, hrest⟩ := ih hlog (noEmpty_of_loadCommand hne hload)
      (hdone.strings hstrings) h
    rw [← hdone.fields]
    refine ⟨s', ?_, hrest⟩
    rw [replay, hload]
    exact hrun

end Load

/-! ## The rewrite -/

section Rewrite

variable {N G : Type} [LinearOrder N] (lib : ServerLib N G) (hlib : HookLib G)
  (slib : ShrinkLib G) (docs : List Bytes) (now : Int)
  {ops : Bytes × Bytes → JsetArgs → Prop} {π ν φ : Type} [DecidableEq π]
  (parts : ∀ i, Parts (jsetDoc lib) (ops i) π ν φ)

/-- A hold of the lock by the shrinker or a JSET. -/
def JsetEvent : ShrinkEvent → Prop
  | .client _ args => handlerOf (commandName args) = some .jset
  | .shrink _ => True

instance : (e : ShrinkEvent) → Decidable (JsetEvent e)
  | .client _ args => inferInstanceAs (Decidable (handlerOf (commandName args) = some .jset))
  | .shrink _ => inferInstanceAs (Decidable True)

/-- What an event asks of the documents. -/
def ShrinkEvent.jsets : ShrinkEvent → List ((Bytes × Bytes) × JsetArgs)
  | .client _ args => jsetOps [args]
  | .shrink _ => []

/-- What holds during a rewrite that began on `s`, while JSETs run. -/
structure JsetInv (s : ServerState G) (x : Shrink G) (d : ServerState G) : Prop where
  copied : Copied lib hlib docs now s.hooks x d
  shrinking : x.l.shrinking = true
  noEmpty : NoEmpty x.l.st.cols
  strings : Strings x.l.st.cols
  prints : PrintsAll lib slib x.l.st.cols
  copyStrings : Strings d.cols
  log : ∀ args ∈ x.l.shrinklog, IsJset args
  documents : Copying parts (docAt lib x.l.st.cols) (docAt lib d.cols) (jsetOps x.l.shrinklog)
    x.Pending
  fields : ∀ i, ¬ x.Pending i → fieldsAt d.cols i = fieldsAt x.l.st.cols i

variable {lib hlib slib docs now parts} {s : ServerState G} {x : Shrink G} {d : ServerState G}

private theorem jsetInv_start {l : Leader G} (hne : NoEmpty l.st.cols)
    (hgood : GoodData lib docs l.st.cols) (hstrings : Strings l.st.cols)
    (hback : PrintsAll lib slib l.st.cols) (hdocs : ∀ i, (parts i).Mem (docAt lib l.st.cols i)) :
    JsetInv lib hlib slib docs now parts l.st (Shrink.start l) ServerState.empty where
  copied := (shrinkInv_start hne hgood).copied
  shrinking := rfl
  noEmpty := hne
  strings := hstrings
  prints := hback
  copyStrings := fun _ _ h => nomatch h
  log := fun _ h => nomatch h
  documents := Copying.init _ hdocs fun _ => (pending_of_fresh rfl rfl).mpr (.inr ⟨rfl, nil_le _⟩)
  fields := fun _ h => absurd ((pending_of_fresh rfl rfl).mpr (.inr ⟨rfl, nil_le _⟩)) h

/-- A JSET that went through is logged. -/
theorem JsetInv.done (h : JsetInv lib hlib slib docs now parts s x d) {args : List Bytes}
    {a : JsetArgs} {st : ServerState G} (aof : Bytes)
    (hhandler : handlerOf (commandName args) = some .jset) (hparse : parseJSET args = .ok a)
    (hdoc : jsetDoc lib a (docAt lib x.l.st.cols a.cell) = some doc)
    (hdone : JsetDone lib a doc x.l.st st) (hne : NoEmpty st.cols) (ha : ops a.cell a) :
    JsetInv lib hlib slib docs now parts s
      { x with l := { x.l with st, aof, shrinklog := x.l.shrinklog ++ [args] } } d where
  copied := {
    cursor := ⟨h.copied.cursor.sorted, h.copied.cursor.ahead, h.copied.cursor.fresh⟩
    good := by
      rw [goodData_iff]
      rw [hdone.fields]
      exact goodData_iff.mp h.copied.good
    lines := h.copied.lines
    file := h.copied.file
    healthy := h.copied.healthy
    hooks := by
      rw [hdone.hooks]
      exact h.copied.hooks
    pending := h.copied.pending }
  shrinking := h.shrinking
  noEmpty := hne
  strings := hdone.strings h.strings
  prints := hdone.printsAll h.prints
  copyStrings := h.copyStrings
  log := by
    intro args' hargs
    rcases List.mem_append.mp hargs with hargs | hargs
    · exact h.log args' hargs
    · rw [List.mem_singleton.mp hargs]
      exact ⟨hhandler, a, hparse⟩
  documents := by
    rw [hdone.docs, jsetOps_append, jsetOps_singleton hparse]
    exact h.documents.request ha hdoc
  fields := by
    rw [hdone.fields]
    exact h.fields

/-- **The invariant is kept by every JSET.** -/
theorem JsetInv.client (h : JsetInv lib hlib slib docs now parts s x d) (env : Env)
    {args : List Bytes} (hhandler : handlerOf (commandName args) = some .jset)
    (hops : ∀ e ∈ jsetOps [args], ops e.1 e.2) :
    JsetInv lib hlib slib docs now parts s
      { x with l := handleInputCommand lib hlib x.l env args } d := by
  have hcall : command lib hlib env x.l.scripts x.l.st args = cmdJset lib env x.l.st args :=
    command_of_handlerOf lib hlib env hhandler x.l.scripts x.l.st
  have hne : NoEmpty (command lib hlib env x.l.scripts x.l.st args).2.cols :=
    command_noEmpty h.noEmpty _ _
  rw [handleInputCommand_of_handlerOf hhandler (by simp)]
  cases hparse : parseJSET args with
  | error e =>
    have hres : command lib hlib env x.l.scripts x.l.st args = (.err e, x.l.st) := by
      rw [hcall, cmdJset, hparse]
    rw [hres, finish_of_not_updated rfl]
    exact h
  | ok a =>
    rw [jsetOps_singleton hparse, List.forall_mem_singleton] at hops
    cases hdoc : jsetDoc lib a (docAt lib x.l.st.cols a.cell) with
    | none =>
      obtain ⟨text, hres⟩ := cmdJset_refused env hparse hdoc
      rw [hcall, hres, finish_of_not_updated rfl]
      exact h
    | some doc =>
      obtain ⟨reply, det, st, hres, hupd, hdone⟩ := cmdJset_done env h.strings hparse hdoc
      rw [hcall, hres] at hne
      have hupd : ((Result.ok reply det, st) : Result G × ServerState G).1.updated = true := hupd
      rw [hcall, hres, finish_of_updated hupd h.shrinking]
      exact h.done _ hhandler hparse hdoc hdone hne hops

/-- **The invariant is kept by every hold of the lock before the swap.** -/
theorem JsetInv.shrink (hspec : lib.ReadsSpecials) (hlines : HookLinesLoad hlib s.hooks)
    (h : JsetInv lib hlib slib docs now parts s x d) (tnow : Int) (hswap : x.stage ≠ .hooks []) :
    ∃ d', JsetInv lib hlib slib docs now parts s (shrinkStep lib slib tnow x) d' := by
  obtain ⟨d', hcopied, hstep⟩ := shrinkStep_copies hspec h.prints hlines h.copied tnow hswap
  refine ⟨d', hcopied, ?_, ?_, ?_, ?_, strings_of_view fun i => ?_, ?_, ?_, fun i hi => ?_⟩
  · rw [hstep.leader]
    exact h.shrinking
  · rw [hstep.leader]
    exact h.noEmpty
  · rw [hstep.leader]
    exact h.strings
  · rw [hstep.leader]
    exact h.prints
  · -- a cell of the copy is empty, as it was before, or as in the live data
    by_cases hi' : (shrinkStep lib slib tnow x).Pending i
    · exact .inl (hcopied.pending i hi')
    by_cases hi : x.Pending i
    · exact .inr ⟨_, h.strings, hstep.new i hi hi'⟩
    · exact .inr ⟨_, h.copyStrings, (hstep.keep i hi).2⟩
  · rw [hstep.leader]
    exact h.log
  · rw [hstep.leader]
    intro i
    exact (h.documents i).snapshot
      (fun hi => ⟨(hstep.keep i hi).1, docAt_of_view (hstep.keep i hi).2⟩)
      fun hi hi' => docAt_of_view (hstep.new i hi hi')
  · rw [hstep.leader]
    by_cases hold : x.Pending i
    · exact fieldsAt_of_view (hstep.new i hold hi)
    · rw [fieldsAt_of_view (hstep.keep i hold).2]
      exact h.fields i hold

/-- The invariant holds until the swap. -/
theorem JsetInv.run (hspec : lib.ReadsSpecials) (hlines : HookLinesLoad hlib s.hooks)
    {events : List ShrinkEvent} (hevents : ∀ e ∈ events, JsetEvent e)
    (hops : ∀ e ∈ events.flatMap ShrinkEvent.jsets, ops e.1 e.2)
    (h : JsetInv lib hlib slib docs now parts s x d)
    (hlive : (shrinkRun lib hlib slib x events).stage ≠ .swapped) :
    ∃ d', JsetInv lib hlib slib docs now parts s (shrinkRun lib hlib slib x events) d' := by
  induction events generalizing x d with
  | nil => exact ⟨d, h⟩
  | cons e events ih =>
    rw [List.flatMap_cons, List.forall_mem_append] at hops
    have hstep : ∃ d',
        JsetInv lib hlib slib docs now parts s (shrinkEvent lib hlib slib x e) d' := by
      cases e with
      | client env args => exact ⟨d, h.client env (hevents _ List.mem_cons_self) hops.1⟩
      | shrink tnow =>
        exact h.shrink hspec hlines tnow (stage_ne_of_live hlive)
    obtain ⟨d', hstep⟩ := hstep
    exact ih (List.forall_mem_cons.mp hevents).2 hops.2 hstep hlive

/-- At the swap every document has been copied, and the file loads to the data. -/
theorem JsetInv.load (h : JsetInv lib hlib slib docs now parts s x d)
    (hstage : x.stage = .hooks []) (reader : CommandReader) (tnow : Int) {packets : List Bytes}
    (hpackets : packets.flatten = (shrinkStep lib slib tnow x).l.aof) :
    ∃ y, loadAOF lib hlib reader now packets [] ⟨ServerState.empty, 0⟩ = .ok y ∧
      SameData y.st.cols x.l.st.cols := by
  have hall : ∀ i, ¬ x.Pending i := not_pending_of_stage (by simp [hstage])
  obtain ⟨s', hrun, hne, hstrings, hdocs, hfields⟩ : ∃ s',
      replay lib hlib now x.l.shrinklog d = .ok s' ∧ _ :=
    replay_jsets h.log h.copied.healthy.noEmpty h.copyStrings (h.documents.redoAll_eq hall)
  have haof : packets.flatten = (x.file ++ x.l.shrinklog).flatMap encodeCommand :=
    hpackets.trans (aof_of_swap hstage tnow)
  have hlines : ∀ args ∈ x.file ++ x.l.shrinklog, args ≠ [] := by
    intro args hargs
    rcases List.mem_append.mp hargs with hargs | hargs
    · exact h.copied.lines args hargs
    rintro rfl
    have hnil : handlerOf (commandName []) = none := by decide
    rw [(h.log [] hargs).1] at hnil
    cases hnil
  have hload : replay lib hlib now (x.file ++ x.l.shrinklog) ServerState.empty = .ok s' := by
    rw [replay_append, h.copied.file]
    exact hrun
  refine ⟨_, loadAOF_flatMap reader hlines haof hload, sameData_of_view hne h.noEmpty fun i => ?_⟩
  refine view_of_docAt hstrings h.strings (congrFun hdocs i) ?_
  rw [hfields]
  exact h.fields i (hall i)

end Rewrite

/-! ## Small instances -/

/-- A JSET of `textLib` forgets what the document was: there is one part. -/
def textParts (ops : JsetArgs → Prop) : Parts (jsetDoc textLib) ops Unit Bytes Unit where
  Mem _ := True
  part _ := ()
  value a := (a.set textLib []).toOption.getD []
  read doc _ := doc
  frame _ := ()
  step_eq := by
    intro a _ _ doc _
    refine ⟨_, ?_, trivial, funext fun _ => rfl, fun _ => rfl⟩
    unfold jsetDoc JsetArgs.set
    split_ifs <;> rfl
  ext := fun _ _ _ _ hread _ => congrFun hread ()

/-- `sjson.Set` with the path of an array and `.-1`, on documents of one
array. -/
def appendItem (json path value : Bytes) : Bytes :=
  let item := 34 :: value ++ [34]
  if json = [] then [123, 34] ++ path.take (path.length - 3) ++ [34, 58, 91] ++ item ++ [93, 125]
  else json.take (json.length - 2) ++ [44] ++ item ++ [93, 125]

/-- `textLib` with a set function that appends. -/
def appendLib : ServerLib Int Unit :=
  { textLib with sjsonSet := fun json path value => .ok (appendItem json path value) }

/-! ## Results -/

variable {N G : Type} [LinearOrder N] {lib : ServerLib N G} {hlib : HookLib G}
  {slib : ShrinkLib G} {docs : List Bytes}

/-- **For every dataset of strings whose fields are clean and print back and
every interleaving of JSETs with the holds of the lock by `aofshrink`, if each
document is made of parts of which each JSET on it writes one: the new file, in
whatever pieces it is read, loads to the documents that the server has at the
swap.** -/
theorem shrink_jset_load (hspec : lib.ReadsSpecials) (reader : CommandReader) (now : Int)
    {l : Leader G} (hne : NoEmpty l.st.cols) (hgood : GoodData lib docs l.st.cols)
    (hstrings : Strings l.st.cols) (hlines : HookLinesLoad hlib l.st.hooks)
    (hback : PrintsAll lib slib l.st.cols) {events : List ShrinkEvent}
    (hevents : ∀ e ∈ events, JsetEvent e) {π ν φ : Type} [DecidableEq π]
    (parts : ∀ i, Parts (jsetDoc lib) (fun a => (i, a) ∈ events.flatMap ShrinkEvent.jsets) π ν φ)
    (hdocs : ∀ i, (parts i).Mem (docAt lib l.st.cols i))
    (hswap : (shrinkRun lib hlib slib (Shrink.start l) events).stage = .hooks []) (tnow : Int)
    {packets : List Bytes}
    (hpackets : packets.flatten =
      (shrinkStep lib slib tnow (shrinkRun lib hlib slib (Shrink.start l) events)).l.aof) :
    ∃ y, loadAOF lib hlib reader now packets [] ⟨ServerState.empty, 0⟩ = .ok y ∧
      SameData y.st.cols (shrinkRun lib hlib slib (Shrink.start l) events).l.st.cols := by
  have hstart : JsetInv lib hlib slib docs now parts l.st (Shrink.start l) ServerState.empty :=
    jsetInv_start hne hgood hstrings hback hdocs
  obtain ⟨d, h⟩ := hstart.run hspec hlines hevents (fun _ he => he) (by simp [hswap])
  exact h.load hswap reader tnow hpackets

theorem shrink_jset_text :
    let c := fun value => ShrinkEvent.client { out := .resp }
      [lit "JSET", lit "fleet", lit "truck1", lit "driver", value]
    let events := [c (lit "ann"), .shrink 0, c (lit "bob"), .shrink 0, c (lit "cleo"), .shrink 0]
    let x := shrinkRun textLib noHooks textShrink (Shrink.start Leader.start) events
    x.stage = .hooks [] ∧
      ∃ y, loadAOF textLib noHooks respReader 0 [(shrinkStep textLib textShrink 0 x).l.aof] []
        ⟨ServerState.empty, 0⟩ = .ok y ∧ SameData y.st.cols x.l.st.cols := by
  intro c events
  have hswap : (shrinkRun textLib noHooks textShrink (Shrink.start Leader.start) events).stage
      = .hooks [] := by decide +kernel
  have hevents : ∀ e ∈ events, JsetEvent e := by decide +kernel
  have hgood : GoodData textLib [] (Leader.start : Leader Unit).st.cols := fun _ _ h => nomatch h
  exact ⟨hswap, shrink_jset_load lossless_text.toReadsSpecials respReader 0 noEmpty_empty hgood
    (fun _ _ h => nomatch h) (fun _ _ h => nomatch h) (fun _ _ h => nomatch h) hevents
    (fun _ => textParts _) (fun _ => trivial) hswap 0 (by simp)⟩

/-- **A JSET that appends, before the line of the document is written: the line
has the item, and the load appends it once more.** -/
theorem shrink_jset_twice :
    let l := handleInputCommand appendLib noHooks Leader.start { out := .resp }
      [lit "JSET", lit "fleet", lit "truck1", lit "tags.-1", lit "red"]
    let x := shrinkRun appendLib noHooks textShrink (Shrink.start l)
      [.shrink 0, .client { out := .resp }
        [lit "JSET", lit "fleet", lit "truck1", lit "tags.-1", lit "blue"], .shrink 0, .shrink 0]
    x.stage = .hooks [] ∧
      docAt appendLib x.l.st.cols (lit "fleet", lit "truck1") =
        some (lit "\x7b\"tags\":[\"red\",\"blue\"]\x7d") ∧
      (loadAOF appendLib noHooks respReader 0 [(shrinkStep appendLib textShrink 0 x).l.aof] []
          ⟨ServerState.empty, 0⟩).toOption.map
        (fun y => docAt appendLib y.st.cols (lit "fleet", lit "truck1")) =
        some (some (lit "\x7b\"tags\":[\"red\",\"blue\",\"blue\"]\x7d")) := by
  decide +kernel

end SpatialDb.Server

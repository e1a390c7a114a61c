import SpatialDb.Server.Cells
import SpatialDb.Server.Collection

/-!
# Expiration

Model of `expire.go`: a pass of `backgroundExpiring` deletes what is past its
deadline with commands of its own, and these are logged.  It does so on every
server, a follower included.  The deadlines of hooks are not modelled: the
hooks that are due are given.
-/

namespace SpatialDb.Server

open Lib OrdMap List

/-! ## Model -/

section

variable {N G : Type}

/-- The ids of `ScanExpires`, up to the first object that is not past its
deadline. -/
def expiredIds (nano : Int) (col : Col G) : List Bytes :=
  ((reindex Collection.expiresKey col).entries.takeWhile fun e => ¬ nano < e.2.expires).map
    fun e => (ofLex e.1).2

/-- The messages of `backgroundExpireObjects`. -/
def objectMsgs (nano : Int) (s : ServerState G) : List (List Bytes) :=
  s.cols.entries.flatMap fun e => (expiredIds nano e.2).map fun id => [lit "del", e.1, id]

/-- The messages of `backgroundExpireHooks`: for each hook that is due, whether
it is a channel, and its name. -/
def hookMsgs (due : List (Bool × Bytes)) : List (List Bytes) :=
  due.map fun h => [if h.1 then lit "delchan" else lit "delhook", h.2]

/-- One message: the data then, and what `writeAOF` has logged. -/
def perform (run : ServerState G → List Bytes → Result G × ServerState G)
    (x : ServerState G × List (List Bytes)) (args : List Bytes) :
    ServerState G × List (List Bytes) :=
  let r := run x.1 args
  (r.2, if r.1.updated then x.2 ++ [args] else x.2)

def backgroundExpireObjects (now : Int) (s : ServerState G) : ServerState G × List (List Bytes) :=
  (objectMsgs now s).foldl (perform (cmdDEL { now })) (s, [])

def backgroundExpireHooks (now : Int) (due : List (Bool × Bytes))
    (x : ServerState G × List (List Bytes)) : ServerState G × List (List Bytes) :=
  (hookMsgs due).foldl
    (perform fun s args => cmdDelHook { now } s (commandName args = lit "delchan") args) x

/-- A pass: the data then, and the commands it has logged. -/
def backgroundExpiring (now : Int) (due : List (Bool × Bytes)) (s : ServerState G) :
    ServerState G × List (List Bytes) :=
  backgroundExpireHooks now due (backgroundExpireObjects now s)

def Leader.expire (l : Leader G) (now : Int) (due : List (Bool × Bytes)) : Leader G :=
  let x := backgroundExpiring now due l.st
  { l with
    st := x.1
    shrinklog := if l.shrinking then l.shrinklog ++ x.2 else l.shrinklog
    aof := l.aof ++ x.2.flatMap encodeCommand }

/-- What happens to a leader. -/
inductive LeaderEvent where
  | request (req : Request)
  /-- A pass, with the hooks that are due. -/
  | expire (now : Int) (due : List (Bool × Bytes))

variable [LinearOrder N] (lib : ServerLib N G) (hlib : HookLib G)

def Leader.step (l : Leader G) : LeaderEvent → Leader G
  | .request req => handle lib hlib l req
  | .expire now due => l.expire now due

def Leader.run (l : Leader G) (events : List LeaderEvent) : Leader G :=
  events.foldl (Leader.step lib hlib) l

/-! ## What a pass deletes -/

variable {args : List Bytes}

variable {nano : Int}

/-- An object that is past its deadline. -/
def Object.Expired (nano : Int) (o : Object G) : Prop := o.expires ≠ 0 ∧ o.expires ≤ nano

instance (o : Object G) : Decidable (o.Expired nano) := by
  unfold Object.Expired
  infer_instance

theorem mem_reindex_expires {col : Col G} {e : (Int ×ₗ Bytes) × Object G} :
    e ∈ (reindex Collection.expiresKey col).entries ↔
      col.get? (ofLex e.1).2 = some e.2 ∧ e.2.expires ≠ 0 ∧ (ofLex e.1).1 = e.2.expires := by
  obtain ⟨i, o⟩ := e
  have hindex : Indexes Collection.expiresKey (reindex Collection.expiresKey col) col :=
    indexes_iff.mpr rfl
  rw [mem_entries_iff, ← toLex_ofLex i, ← Prod.mk.eta (p := ofLex i), hindex]
  refine and_congr_right fun _ => ?_
  unfold Collection.expiresKey
  by_cases hex : o.expires = 0
  · simp [hex]
  · simp [hex, eq_comm]

/-- The scan stops where the first object is not past its deadline, and the
order of the index makes that all of them. -/
theorem mem_expiredIds {col : Col G} {id : Bytes} :
    id ∈ expiredIds nano col ↔ ∃ o, col.get? id = some o ∧ o.Expired nano := by
  have hmem : ∀ e, e ∈ (reindex Collection.expiresKey col).entries.takeWhile
        (fun e => ¬ nano < e.2.expires) ↔
      e ∈ (reindex Collection.expiresKey col).entries ∧ e.2.expires ≤ nano := fun e => by
    rw [mem_takeWhile_iff (reindex Collection.expiresKey col).sorted]
    · simp
    · intro e he e' he' hlt hle
      have hkey := (mem_reindex_expires.mp he).2.2
      have hkey' := (mem_reindex_expires.mp he').2.2
      have hle' : (ofLex e.1).1 ≤ (ofLex e'.1).1 := Prod.Lex.monotone_fst _ _ hlt.le
      simp only [not_lt, decide_eq_true_eq] at hle ⊢
      omega
  rw [expiredIds, mem_map]
  constructor
  · rintro ⟨e, he, rfl⟩
    obtain ⟨hin, hle⟩ := (hmem e).mp he
    obtain ⟨hget, hne, -⟩ := mem_reindex_expires.mp hin
    exact ⟨e.2, hget, hne, hle⟩
  · rintro ⟨o, hget, hne, hle⟩
    refine ⟨(toLex (o.expires, id), o), (hmem _).mpr ⟨?_, hle⟩, rfl⟩
    exact mem_reindex_expires.mpr ⟨hget, hne, rfl⟩

theorem mem_objectMsgs {s : ServerState G} :
    args ∈ objectMsgs nano s ↔ ∃ i o, lookup s.cols i = some o ∧ o.Expired nano ∧
      args = [lit "del", i.1, i.2] := by
  rw [objectMsgs, mem_flatMap]
  constructor
  · rintro ⟨⟨key, col⟩, he, hargs⟩
    obtain ⟨id, hid, rfl⟩ := mem_map.mp hargs
    obtain ⟨o, hget, hex⟩ := mem_expiredIds.mp hid
    rw [mem_entries_iff] at he
    exact ⟨(key, id), o, by rw [lookup_of_get? he, hget], hex, rfl⟩
  · rintro ⟨⟨key, id⟩, o, hlook, hex, rfl⟩
    obtain ⟨col, hcol, hget⟩ := Option.bind_eq_some_iff.mp hlook
    exact ⟨(key, col), (mem_entries_iff _ _ _).mpr hcol,
      mem_map.mpr ⟨id, mem_expiredIds.mpr ⟨o, hget, hex⟩, rfl⟩⟩

theorem lookup_cmdDEL (env : Env) (s : ServerState G) (name key id : Bytes) (i : Bytes × Bytes) :
    lookup (cmdDEL env s [name, key, id]).2.cols i =
      if i = (key, id) then none else lookup s.cols i := by
  have hparse : parseErron404 [] false = .ok false := rfl
  cases ho : lookup s.cols (key, id) with
  | none =>
    obtain ⟨r, -, heq⟩ := cmdDEL_of_none env name hparse ho
    rw [heq]
    split_ifs with hi
    · rw [hi, ho]
    · rfl
  | some o =>
    obtain ⟨col, hcol, hid⟩ := Option.bind_eq_some_iff.mp ho
    rw [cmdDEL_of_some env name hparse hcol hid]
    exact lookup_takeOut hcol id i

/-- **A pass deletes the objects that are past their deadline and no others.** -/
theorem lookup_backgroundExpireObjects (s : ServerState G) (i : Bytes × Bytes) :
    lookup (backgroundExpireObjects nano s).1.cols i =
      (lookup s.cols i).filter fun o => ¬ o.Expired nano := by
  have hfold : ∀ (msgs : List (List Bytes)) (x : ServerState G × List (List Bytes)),
      (∀ args ∈ msgs, ∃ key id, args = [lit "del", key, id]) →
      lookup (msgs.foldl (perform (cmdDEL { now := nano })) x).1.cols i =
        if [lit "del", i.1, i.2] ∈ msgs then none else lookup x.1.cols i := by
    intro msgs
    induction msgs with
    | nil => intro x _; rfl
    | cons args msgs ih =>
      intro x hmsgs
      obtain ⟨key, id, rfl⟩ := hmsgs args mem_cons_self
      rw [foldl_cons, ih _ (forall_mem_cons.mp hmsgs).2, perform, lookup_cmdDEL]
      by_cases hi : i = (key, id) <;> by_cases hin : [lit "del", i.1, i.2] ∈ msgs <;>
        simp_all [Prod.ext_iff]
  rw [backgroundExpireObjects, hfold]
  · cases ho : lookup s.cols i with
    | none => simp
    | some o =>
      have hmem : [lit "del", i.1, i.2] ∈ objectMsgs nano s ↔ o.Expired nano := by
        rw [mem_objectMsgs]
        constructor
        · rintro ⟨i', o', ho', hex, heq⟩
          have hi : i = i' := by simpa [Prod.ext_iff] using heq
          subst hi
          cases ho.symm.trans ho'
          exact hex
        · exact fun hex => ⟨i, o, ho, hex, rfl⟩
      simp only [hmem, Option.filter_some, decide_not, Bool.not_eq_true', decide_eq_false_iff_not,
        ite_not]
  · intro args hargs
    obtain ⟨i, o, -, -, rfl⟩ := mem_objectMsgs.mp hargs
    exact ⟨i.1, i.2, rfl⟩

/-! ### The rest of the dataset and the log -/

theorem nodup_expiredIds (col : Col G) : (expiredIds nano col).Nodup := by
  refine Nodup.map_on ?_
    ((reindex Collection.expiresKey col).nodup_entries.sublist (takeWhile_sublist _))
  rintro ⟨i, o⟩ he ⟨i', o'⟩ he' (hid : (ofLex i).2 = (ofLex i').2)
  obtain ⟨hget, -, hkey⟩ := mem_reindex_expires.mp ((takeWhile_sublist _).subset he)
  obtain ⟨hget', -, hkey'⟩ := mem_reindex_expires.mp ((takeWhile_sublist _).subset he')
  -- the id gives the object, and the object its deadline
  obtain rfl : o = o' := by
    simp only [hid] at hget
    exact Option.some.inj (hget.symm.trans hget')
  have hi : i = i' := ofLex.injective (Prod.ext (hkey.trans hkey'.symm) hid)
  rw [hi]

theorem nodup_objectMsgs (s : ServerState G) : (objectMsgs nano s).Nodup := by
  refine nodup_flatMap.mpr ⟨?_, s.cols.sorted.imp ?_⟩
  · intro e _
    exact (nodup_expiredIds e.2).map fun id id' heq => by simpa using heq
  · intro e e' hlt args hargs hargs'
    obtain ⟨id, -, rfl⟩ := mem_map.mp hargs
    obtain ⟨id', -, heq⟩ := mem_map.mp hargs'
    obtain ⟨hkey, -⟩ : e'.1 = e.1 ∧ id' = id := by simpa using heq
    exact hlt.ne hkey.symm

/-- The collections without objects are the same, so that none was left empty. -/
def SameEmpty (cols cols' : Dataset G) : Prop :=
  ∀ key, cols.get? key = some empty ↔ cols'.get? key = some empty

theorem cmdDEL_of_lookup (env : Env) {s : ServerState G} {key id : Bytes} {o : Object G}
    (h : lookup s.cols (key, id) = some o) (name : Bytes) :
    (cmdDEL env s [name, key, id]).1.updated = true ∧
      (cmdDEL env s [name, key, id]).2.hooks = s.hooks ∧
      SameEmpty s.cols (cmdDEL env s [name, key, id]).2.cols := by
  obtain ⟨col, hcol, hid⟩ := Option.bind_eq_some_iff.mp h
  have hne : col ≠ empty := by
    rintro rfl
    cases hid
  unfold cmdDEL
  simp only [parseErron404, hcol, hid]
  split
  · refine ⟨rfl, rfl, fun key' => ?_⟩
    rw [get?_delete]
    by_cases hkey : key' = key
    · simp [hkey, hcol, hne]
    · simp [hkey]
  rename_i hsize
  have hne' : col.delete id ≠ empty := mt (size_eq_zero_iff _).mpr hsize
  refine ⟨rfl, rfl, fun key' => ?_⟩
  rw [get?_set]
  by_cases hkey : key' = key
  · simp [hkey, hcol, hne, hne']
  · simp [hkey]

/-- The messages for objects that are all there: every DEL is logged. -/
theorem foldl_perform_cmdDEL (env : Env) {msgs : List (List Bytes)} (hnodup : msgs.Nodup)
    {x : ServerState G × List (List Bytes)}
    (hthere : ∀ args ∈ msgs, ∃ i, args = [lit "del", i.1, i.2] ∧ lookup x.1.cols i ≠ none) :
    let r := msgs.foldl (perform (cmdDEL env)) x
    r.2 = x.2 ++ msgs ∧ r.1.hooks = x.1.hooks ∧ SameEmpty x.1.cols r.1.cols := by
  induction msgs generalizing x with
  | nil => exact ⟨(append_nil _).symm, rfl, fun _ => Iff.rfl⟩
  | cons args msgs ih =>
    obtain ⟨hargs, htail⟩ := nodup_cons.mp hnodup
    obtain ⟨i, rfl, hi⟩ := hthere _ mem_cons_self
    obtain ⟨o, ho⟩ := Option.ne_none_iff_exists'.mp hi
    obtain ⟨hupd, hhooks, hempty⟩ := cmdDEL_of_lookup env ho (lit "del")
    have hstep : perform (cmdDEL env) x [lit "del", i.1, i.2] =
        ((cmdDEL env x.1 [lit "del", i.1, i.2]).2, x.2 ++ [[lit "del", i.1, i.2]]) := by
      rw [perform, if_pos hupd]
    -- the objects of the other messages are still there
    have hrest : ∀ args ∈ msgs, ∃ j, args = [lit "del", j.1, j.2] ∧
        lookup (cmdDEL env x.1 [lit "del", i.1, i.2]).2.cols j ≠ none := by
      intro args hmem
      obtain ⟨j, rfl, hj⟩ := hthere args (mem_cons_of_mem _ hmem)
      have hne : j ≠ (i.1, i.2) := by
        rintro rfl
        exact hargs hmem
      exact ⟨j, rfl, by rwa [lookup_cmdDEL, if_neg hne]⟩
    obtain ⟨hlog, hhooks', hempty'⟩ := ih htail (x := (_, x.2 ++ [[lit "del", i.1, i.2]])) hrest
    rw [foldl_cons, hstep]
    refine ⟨?_, hhooks'.trans hhooks, fun key => (hempty key).trans (hempty' key)⟩
    rw [hlog, append_assoc]
    rfl

/-- A collection is there when it is empty or holds an object. -/
theorem isSome_get?_iff_or {cols : Dataset G} (key : Bytes) :
    (cols.get? key).isSome = true ↔
      cols.get? key = some empty ∨ ∃ id, lookup cols (key, id) ≠ none := by
  cases hcol : cols.get? key with
  | none => simp [lookup_of_none hcol]
  | some col =>
    simp only [lookup_of_get? hcol, Option.isSome_some, Option.some.injEq, true_iff]
    by_contra hnot
    rw [not_or, not_exists] at hnot
    exact hnot.1 ((eq_empty_iff col).mpr fun id => not_not.mp (hnot.2 id))

/-- **A pass leaves exactly the objects without a deadline or with a later one,
as they were; a collection is left when it holds an object then, or held none
before; the hooks stay; and the log gets exactly one DEL for each object that is
gone.** -/
theorem backgroundExpireObjects_spec (nano : Int) (s : ServerState G) :
    let r := backgroundExpireObjects nano s
    (∀ i, lookup r.1.cols i =
      (lookup s.cols i).filter fun o => o.expires = 0 ∨ nano < o.expires) ∧
    (∀ key, (r.1.cols.get? key).isSome = true ↔
      s.cols.get? key = some empty ∨ ∃ id, lookup r.1.cols (key, id) ≠ none) ∧
    r.1.hooks = s.hooks ∧
    r.2.Nodup ∧
    ∀ args, args ∈ r.2 ↔ ∃ i o, lookup s.cols i = some o ∧
      (o.expires ≠ 0 ∧ o.expires ≤ nano) ∧ args = [lit "del", i.1, i.2] := by
  intro r
  have hthere : ∀ args ∈ objectMsgs nano s,
      ∃ i, args = [lit "del", i.1, i.2] ∧ lookup s.cols i ≠ none := by
    intro args hargs
    obtain ⟨i, o, ho, -, heq⟩ := mem_objectMsgs.mp hargs
    exact ⟨i, heq, by simp [ho]⟩
  obtain ⟨hlog, hhooks, hempty⟩ := foldl_perform_cmdDEL { now := nano } (nodup_objectMsgs s)
    (x := (s, [])) hthere
  rw [nil_append] at hlog
  refine ⟨fun i => ?_, fun key => ?_, hhooks, hlog.symm ▸ nodup_objectMsgs s, fun args => ?_⟩
  · have hlive : ∀ o : Object G, (¬ o.Expired nano) ↔ (o.expires = 0 ∨ nano < o.expires) := by
      intro o
      rw [Object.Expired, not_and_or, not_not, not_le]
    rw [lookup_backgroundExpireObjects]
    simp only [hlive]
  · rw [isSome_get?_iff_or, hempty key]
    rfl
  · exact hlog.symm ▸ mem_objectMsgs

end

/-! ## A small instance

As `textLib`, with whole numbers of seconds. -/

def clockLib : ServerLib Int Unit :=
  { textLib with
    parseFloat := fun data =>
      if data ≠ [] ∧ data.all isDigitByte then (.num (digitsValue data), true)
      else textLib.parseFloat data
    nanos := fun
      | .num n => n * 1000000000
      | .nan => 0 }

/-! ## The log as a history -/

variable {N G : Type} [LinearOrder N] (lib : ServerLib N G) (hlib : HookLib G)
  (ok : Int → F64 N → Prop)

/-- Commands that report an update one after the other, from `s` to `s'`.  Where
one gives seconds, `ok` is true of its clock and of them. -/
inductive History : ServerState G → List (List Bytes) → ServerState G → Prop where
  | nil (s : ServerState G) : History s [] s
  | cons {now : Int} {args : List Bytes} {log : List (List Bytes)} {s s' s'' : ServerState G}
      (hup : Updates lib hlib now args s s') (hok : ∀ x ∈ seconds lib args, ok now x)
      (hrest : History s' log s'') : History s (args :: log) s''

/-- A request that the log can repeat, and whose deadline is `ok`. -/
def CarefulEvent (l : Leader G) : LeaderEvent → Prop
  | .request req => QuietRequest lib l req ∧
      ∀ args ∈ req.command? lib, ∀ x ∈ seconds lib args, ok req.now x
  | .expire _ _ => True

/-- Every request is careful in the state it meets. -/
def CarefulRun : Leader G → List LeaderEvent → Prop
  | _, [] => True
  | l, e :: events => CarefulEvent lib ok l e ∧ CarefulRun (l.step lib hlib e) events

instance [∀ now x, Decidable (ok now x)] (l : Leader G) :
    (e : LeaderEvent) → Decidable (CarefulEvent lib ok l e)
  | .request req => inferInstanceAs (Decidable (QuietRequest lib l req ∧
      ∀ args ∈ req.command? lib, ∀ x ∈ seconds lib args, ok req.now x))
  | .expire _ _ => inferInstanceAs (Decidable True)

instance decidableCarefulRun [∀ now x, Decidable (ok now x)] :
    (l : Leader G) → (events : List LeaderEvent) → Decidable (CarefulRun lib hlib ok l events)
  | _, [] => inferInstanceAs (Decidable True)
  | l, e :: events =>
    have := decidableCarefulRun (l.step lib hlib e) events
    inferInstanceAs (Decidable
      (CarefulEvent lib ok l e ∧ CarefulRun lib hlib ok (l.step lib hlib e) events))

variable {lib hlib ok} {s s' s'' : ServerState G} {now : Int}

theorem History.append {log log' : List (List Bytes)} (h : History lib hlib ok s log s')
    (h' : History lib hlib ok s' log' s'') : History lib hlib ok s (log ++ log') s'' := by
  induction h with
  | nil s => exact h'
  | cons hup hok _ ih => exact .cons hup hok (ih h')

theorem History.single (hup : Updates lib hlib now args s s')
    (hok : ∀ x ∈ seconds lib args, ok now x) : History lib hlib ok s [args] s' :=
  .cons hup hok (.nil s')

theorem History.ne_nil {log : List (List Bytes)} (h : History lib hlib ok s log s') :
    ∀ args ∈ log, args ≠ [] := by
  induction h with
  | nil s => simp
  | cons hup _ _ ih =>
    intro a ha
    rcases mem_cons.mp ha with rfl | ha
    · exact ne_nil_of_mem_writeCommands hup.write
    · exact ih a ha

variable (lib) in
/-- A write that gives no deadline and sets no hook. -/
structure Deletion (args : List Bytes) : Prop where
  write : commandName args ∈ writeCommands
  noHook : ¬ setsHook args
  noSeconds : seconds lib args = none

theorem deletion_of_name
    (h : commandName args ∈ [lit "del", lit "delhook", lit "delchan"]) : Deletion lib args := by
  have hall : ∀ name ∈ [lit "del", lit "delhook", lit "delchan"], name ∈ writeCommands ∧
      ¬ (name = lit "sethook" ∨ name = lit "setchan") ∧
      handlerOf name ≠ some .set ∧ handlerOf name ≠ some .expire := by decide
  obtain ⟨hwrite, hhook, hset, hexpire⟩ := hall _ h
  refine ⟨hwrite, hhook, ?_⟩
  unfold seconds
  split
  · exact absurd ‹_› hset
  · exact absurd ‹_› hexpire
  · rfl

variable {x : ServerState G × List (List Bytes)}

/-- The messages of a pass, as commands. -/
theorem foldl_perform_history (now : Int)
    {run : ServerState G → List Bytes → Result G × ServerState G}
    {msgs : List (List Bytes)} (hdel : ∀ args ∈ msgs, Deletion lib args)
    (hrun : ∀ args ∈ msgs, ∀ s, run s args = command lib hlib { now } [] s args)
    (hne : NoEmpty x.1.cols)
    (h : History lib hlib ok s x.2 x.1) :
    NoEmpty (msgs.foldl (perform run) x).1.cols ∧
      History lib hlib ok s (msgs.foldl (perform run) x).2 (msgs.foldl (perform run) x).1 := by
  induction msgs generalizing x with
  | nil => exact ⟨hne, h⟩
  | cons args msgs ih =>
    obtain ⟨hwrite, hhook, hseconds⟩ := hdel args mem_cons_self
    have hcmd := hrun args mem_cons_self x.1
    refine ih (forall_mem_cons.mp hdel).2 (forall_mem_cons.mp hrun).2 ?_ ?_
    · show NoEmpty (run x.1 args).2.cols
      rw [hcmd]
      exact command_noEmpty hne [] args
    · unfold perform
      dsimp only
      rw [hcmd]
      cases hupd : (command lib hlib { now } [] x.1 args).1.updated with
      | false =>
        rw [command_of_not_updated hne [] args hupd]
        exact h
      | true =>
        refine h.append (.single ⟨hwrite, fun hset => absurd hset hhook, _, _, rfl, hupd, rfl⟩ ?_)
        rw [hseconds]
        simp

variable (lib hlib ok now) in
theorem backgroundExpireObjects_history (hne : NoEmpty s.cols) :
    NoEmpty (backgroundExpireObjects now s).1.cols ∧
      History lib hlib ok s (backgroundExpireObjects now s).2
        (backgroundExpireObjects now s).1 := by
  have hname : ∀ args ∈ objectMsgs now s, commandName args = lit "del" := by
    intro args hargs
    obtain ⟨i, o, -, -, rfl⟩ := mem_objectMsgs.mp hargs
    show toLower (lit "del") = lit "del"
    decide
  refine foldl_perform_history now ?_ ?_ hne (.nil s)
  · intro args hargs
    exact deletion_of_name (by rw [hname args hargs]; decide)
  · intro args hargs s
    have hhandler : handlerOf (commandName args) = some .del := by
      rw [hname args hargs]
      decide
    rw [command_of_handlerOf lib hlib { now } hhandler]
    rfl

variable (now) in
theorem backgroundExpireHooks_history (due : List (Bool × Bytes)) (hne : NoEmpty x.1.cols)
    (h : History lib hlib ok s x.2 x.1) :
    NoEmpty (backgroundExpireHooks now due x).1.cols ∧
      History lib hlib ok s (backgroundExpireHooks now due x).2
        (backgroundExpireHooks now due x).1 := by
  have hname : ∀ args ∈ hookMsgs due, commandName args = lit "delhook" ∨
      commandName args = lit "delchan" := by
    intro args hargs
    obtain ⟨⟨channel, name⟩, -, rfl⟩ := mem_map.mp hargs
    cases channel with
    | false =>
      left
      show toLower (lit "delhook") = lit "delhook"
      decide
    | true =>
      right
      show toLower (lit "delchan") = lit "delchan"
      decide
  refine foldl_perform_history now ?_ ?_ hne h
  · intro args hargs
    refine deletion_of_name ?_
    rcases hname args hargs with h | h <;> rw [h] <;> decide
  · intro args hargs s
    unfold command
    rcases hname args hargs with h | h <;> rw [h] <;> rfl

variable (lib hlib ok now) in
/-- **A pass logs a history that leads to its data.** -/
theorem backgroundExpiring_history (hne : NoEmpty s.cols) (due : List (Bool × Bytes)) :
    NoEmpty (backgroundExpiring now due s).1.cols ∧
      History lib hlib ok s (backgroundExpiring now due s).2 (backgroundExpiring now due s).1 := by
  obtain ⟨hne', hobjects⟩ := backgroundExpireObjects_history lib hlib ok now hne
  exact backgroundExpireHooks_history now due hne' hobjects

/-- What one event adds to the log. -/
theorem Leader.step_history {l : Leader G} (hne : NoEmpty l.st.cols) {e : LeaderEvent}
    (h : CarefulEvent lib ok l e) :
    NoEmpty (l.step lib hlib e).st.cols ∧ ∃ log, (l.step lib hlib e).aof =
        l.aof ++ log.flatMap encodeCommand ∧
      History lib hlib ok l.st log (l.step lib hlib e).st := by
  cases e with
  | request req =>
    obtain ⟨hquiet, hok⟩ := h
    have heffect : Effect lib hlib req.now (req.command? lib) l (handle lib hlib l req) :=
      handle_effect hne hquiet
    show NoEmpty (handle lib hlib l req).st.cols ∧ ∃ log, (handle lib hlib l req).aof = _ ∧
      History lib hlib ok l.st log (handle lib hlib l req).st
    rcases heffect with ⟨hst, haof⟩ | ⟨args, hargs, hup, haof⟩
    · rw [hst]
      exact ⟨hne, [], by simpa using haof, .nil _⟩
    refine ⟨?_, [args], by simpa using haof, .single hup (hok args hargs)⟩
    obtain ⟨env, scripts, -, -, heq⟩ := hup.run
    rw [heq]
    exact command_noEmpty hne scripts args
  | expire now due =>
    obtain ⟨hne', hhistory⟩ := backgroundExpiring_history lib hlib ok now hne due
    exact ⟨hne', _, rfl, hhistory⟩

/-- **After any careful run the log has grown by commands that each report an
update on the way to the data.** -/
theorem Leader.run_history {l : Leader G} (hne : NoEmpty l.st.cols) {events : List LeaderEvent}
    (h : CarefulRun lib hlib ok l events) :
    NoEmpty (l.run lib hlib events).st.cols ∧ ∃ log, (l.run lib hlib events).aof =
        l.aof ++ log.flatMap encodeCommand ∧
      History lib hlib ok l.st log (l.run lib hlib events).st := by
  induction events generalizing l with
  | nil => exact ⟨hne, [], by simp [Leader.run], .nil _⟩
  | cons e events ih =>
    obtain ⟨hne', log, haof, hlog⟩ := Leader.step_history hne h.1
    obtain ⟨hne'', log', haof', hlog'⟩ := ih hne' h.2
    refine ⟨hne'', log ++ log', ?_, hlog.append hlog'⟩
    show (Leader.run lib hlib (l.step lib hlib e) events).aof = _
    rw [haof', haof, flatMap_append, append_assoc]

/-! ### Meeting the log later -/

variable {Q : Int → Int → Prop} {t : ServerState G} {now' : Int}

/-- A logged command does the same again on data that differ in their
deadlines, if it gives related deadlines. -/
theorem Updates.redo (htime : hlib.TimeFree)
    (hup : Updates lib hlib now args s s') (haged : Aged Q s t) (h0 : Q 0 0)
    (hq : ∀ x ∈ seconds lib args, Q (expiresAt lib { now } x) (expiresAt lib { now := now' } x)) :
    Done Q s' (command lib hlib { now := now' } [] t args) := by
  obtain ⟨-, hscripts, env, scripts, rfl, hupd, rfl⟩ := hup
  refine command_redoes haged h0 rfl rfl (fun hset channel => ?_) (fun _ x hx => hq x hx) hupd
  have hcols := haged.cols.mono fun col col' hcol =>
    hcol.mono fun o o' ho => (⟨ho.geo, ho.fields, trivial⟩ : SameObject (fun _ _ => True) o o')
  rw [← htime _ _ [] channel args hcols]
  exact hlib.parseHook_scripts _ _ _ channel args (hscripts hset)

/-- **A history is loaded at another time without an error, into data that
differ in their deadlines only.** -/
theorem History.replays (htime : hlib.TimeFree) {log : List (List Bytes)}
    (h : History lib hlib ok s log s') (haged : Aged Q s t) (h0 : Q 0 0)
    (hq : ∀ args ∈ log, ∀ n, ∀ x ∈ seconds lib args, ok n x →
      Q (expiresAt lib { now := n } x) (expiresAt lib { now := now' } x)) :
    ∃ t', replay lib hlib now' log t = .ok t' ∧ Aged Q s' t' := by
  induction h generalizing t with
  | nil s => exact ⟨t, rfl, haged⟩
  | cons hup hok _ ih =>
    obtain ⟨haged', hdone, -⟩ := hup.redo htime haged h0 fun x hx =>
      hq _ mem_cons_self _ x hx (hok x hx)
    rw [replay, loadCommand_of_ok hdone]
    exact ih haged' (forall_mem_cons.mp hq).2

end SpatialDb.Server

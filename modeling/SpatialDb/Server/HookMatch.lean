import SpatialDb.Server.HookIndexes

/-!
# Hooks and the candidates for a command

Model of `getQueueCandidates` and `queueHooks` of `aof.go`.  A command is
matched against the hooks that the containers bring up: those with `outside`
among their detections, and those whose rectangles overlap the old or the new
object of the details.

DROP gives no object, and an object that is deleted may be anywhere.  A hook
without `outside` hears of neither, unless the object happens to be near.
-/

namespace SpatialDb.Server

open Lib List

/-! ## Rectangles -/

section

variable {G A R M K : Type} [LinearOrder K]

/-- The test of the trees. -/
def Rect.overlaps (r r' : Rect K) : Bool :=
  r.minX ≤ r'.maxX ∧ r'.minX ≤ r.maxX ∧ r.minY ≤ r'.maxY ∧ r'.minY ≤ r.maxY

/-- The rectangle around two others. -/
def Rect.union (r r' : Rect K) : Rect K :=
  ⟨min r.minX r'.minX, min r.minY r'.minY, max r.maxX r'.maxX, max r.maxY r'.maxY⟩

def Rect.Contains (r : Rect K) (p : K × K) : Prop :=
  r.minX ≤ p.1 ∧ p.1 ≤ r.maxX ∧ r.minY ≤ p.2 ∧ p.2 ≤ r.maxY

/-- The rectangle of the line between two points. -/
def lineRect (p q : K × K) : Rect K := ⟨min p.1 q.1, min p.2 q.2, max p.1 q.1, max p.2 q.2⟩

theorem Rect.overlaps_iff {r r' : Rect K} :
    r.overlaps r' = true ↔
      r.minX ≤ r'.maxX ∧ r'.minX ≤ r.maxX ∧ r.minY ≤ r'.maxY ∧ r'.minY ≤ r.maxY := by
  simp [Rect.overlaps]

/-- A line between two rectangles stays in the one around them. -/
theorem overlaps_union {r r' area : Rect K} {p q : K × K} (hp : r.Contains p) (hq : r'.Contains q)
    (h : area.overlaps (lineRect p q) = true) : area.overlaps (r.union r') = true := by
  rw [Rect.overlaps_iff] at h ⊢
  obtain ⟨hmaxX, hminX, hmaxY, hminY⟩ := h
  refine ⟨?_, ?_, ?_, ?_⟩
  · exact hmaxX.trans (max_le_max hp.2.1 hq.2.1)
  · exact (min_le_min hp.1 hq.1).trans hminX
  · exact hmaxY.trans (max_le_max hp.2.2.2 hq.2.2.2)
  · exact (min_le_min hp.2.2.1 hq.2.2.1).trans hminY

/-! ## Candidates and messages -/

/-- `Search` of a tree. -/
def treeSearch (tree : Multiset (Rect K × Hooks.Hook G A R)) (rect : Rect K) :
    Multiset (Hooks.Hook G A R) :=
  (tree.filter fun e => e.1.overlaps rect).map Prod.snd

variable (lib : FenceLib G A R M K)

/-- `getQueueCandidates`: the hooks that it puts into its map. -/
def getQueueCandidates (t : Hooks.Tables G A R K) (d : Details G) : Multiset (Hooks.Hook G A R) :=
  let ofKey (hooks : Multiset (Hooks.Hook G A R)) := hooks.filter fun h => h.fence.key = d.key
  let out := t.hooksOut.values
  let cross :=
    match d.old, d.obj with
    | some old, some (_, o) =>
      treeSearch t.hookCross ((lib.objRect old.geo).union (lib.objRect o.geo))
    | _, _ => 0
  let near (o : Option (Object G)) :=
    match o with
    | some o => treeSearch t.hookTree (lib.objRect o.geo)
    | none => 0
  ofKey (out + cross + near d.old + near (d.obj.map Prod.snd))

/-- The slice that the keys of a map are put into: each once, in any order. -/
structure SliceOf (found : Multiset (Hooks.Hook G A R)) (slice : List (Hooks.Hook G A R)) :
    Prop where
  nodup : slice.Nodup
  mem : ∀ h, h ∈ slice ↔ h ∈ found

/-- `msgDetectCode`. -/
def msgDetectCode : FenceMsg G M → Nat
  | .object _ .exit _ _ _ => 1
  | .object _ .outside _ _ _ => 2
  | .object _ .enter _ _ _ => 3
  | .object _ .inside _ _ _ => 4
  | _ => 0

/-- The comparison of `sortMsgs`, for names that are UTF-8: it takes them from
the JSON of the messages. -/
def msgLess (a b : FenceMsg G M) : Bool :=
  if msgDetectCode a < msgDetectCode b then true
  else if msgDetectCode a > msgDetectCode b then false
  else a.hook < b.hook

def sortMsgs (msgs : List (FenceMsg G M)) : List (FenceMsg G M) := StdSort.stable.run msgLess msgs

/-- The messages of `queueHooks`: those that are published for the channels, and
those that are queued for the hooks. -/
def queueMsgs (candidates : List (Hooks.Hook G A R)) (d : Details G) :
    List (FenceMsg G M) × List (FenceMsg G M) :=
  let msgs (hooks : List (Hooks.Hook G A R)) :=
    hooks.flatMap fun h => FenceMatch lib h.name h.fence d
  (sortMsgs (msgs (candidates.filter fun h => h.channel)),
    sortMsgs (msgs (candidates.filter fun h => !h.channel)))

/-- The rectangle of a fence is near the old or the new object of the details. -/
def Near (d : Details G) (rect : Rect K) : Prop :=
  (∃ old, d.old = some old ∧ rect.overlaps (lib.objRect old.geo) = true) ∨
    ∃ id o, d.obj = some (id, o) ∧ rect.overlaps (lib.objRect o.geo) = true

/-- It is near the line between them. -/
def NearLine (d : Details G) (rect : Rect K) : Prop :=
  ∃ old id o, d.old = some old ∧ d.obj = some (id, o) ∧
    rect.overlaps ((lib.objRect old.geo).union (lib.objRect o.geo)) = true

/-- A hook comes up: for its detections, or for the place of its fence. -/
def ComesUp (h : Hooks.Hook G A R) (d : Details G) : Prop :=
  h.fence.wants .outside = true ∨
    ∃ rect, h.rect? lib = some rect ∧
      (Near lib d rect ∨ h.fence.detectsCross = true ∧ NearLine lib d rect)

/-- A registered hook on the key of the details. -/
def Registered (t : Hooks.Tables G A R K) (d : Details G) (h : Hooks.Hook G A R) : Prop :=
  t.hooks.get? h.name = some h ∧ h.fence.key = d.key

variable {lib} {t : Hooks.Tables G A R K} {h : Hooks.Hook G A R} {d : Details G}

theorem mem_treeSearch {tree : Multiset (Rect K × Hooks.Hook G A R)} {rect : Rect K} :
    h ∈ treeSearch tree rect ↔ ∃ r, (r, h) ∈ tree ∧ r.overlaps rect = true := by
  simp only [treeSearch, Multiset.mem_map, Multiset.mem_filter, Prod.exists]
  constructor
  · rintro ⟨r, h', hmem, rfl⟩
    exact ⟨r, hmem⟩
  · rintro ⟨r, hmem⟩
    exact ⟨r, h, hmem, rfl⟩

/-- The candidates are the registered hooks that come up. -/
theorem Hooks.Tables.Inv.mem_candidates (hinv : t.Inv lib) :
    h ∈ getQueueCandidates lib t d ↔ Registered t d h ∧ ComesUp lib h d := by
  have htree : ∀ rect, h ∈ treeSearch t.hookTree rect ↔
      t.hooks.get? h.name = some h ∧ ∃ r, h.rect? lib = some r ∧ r.overlaps rect = true := by
    intro rect
    simp only [mem_treeSearch, hinv.mem_tree, and_assoc, exists_and_left]
  have hcross : ∀ rect, h ∈ treeSearch t.hookCross rect ↔
      t.hooks.get? h.name = some h ∧ h.fence.detectsCross = true ∧
        ∃ r, h.rect? lib = some r ∧ r.overlaps rect = true := by
    intro rect
    simp only [mem_treeSearch, hinv.mem_cross]
    constructor
    · rintro ⟨r, ⟨⟨hget, hrect⟩, hdetects⟩, hover⟩
      exact ⟨hget, hdetects, r, hrect, hover⟩
    · rintro ⟨hget, hdetects, r, hrect, hover⟩
      exact ⟨r, ⟨⟨hget, hrect⟩, hdetects⟩, hover⟩
  rw [getQueueCandidates, Registered, ComesUp]
  simp only [Multiset.mem_filter, Multiset.mem_add, Multiset.mem_coe, hinv.mem_values_out, Near,
    NearLine]
  rcases d.old with _ | old <;> rcases d.obj with _ | ⟨id, o⟩ <;> cases hrect : h.rect? lib <;>
    simp [htree, hcross, hrect] <;> tauto

/-! ## Hooks with a message -/

/-- Objects and areas match only where their rectangles overlap, and the center
of an object lies in its rectangle. -/
structure FenceLib.Boxed (lib : FenceLib G A R M K) : Prop where
  within : ∀ {geo area}, lib.within geo area = true →
    (lib.rect area).overlaps (lib.objRect geo) = true
  intersects : ∀ {geo area}, lib.intersects geo area = true →
    (lib.rect area).overlaps (lib.objRect geo) = true
  line : ∀ {p q area}, lib.lineIntersects p q area = true →
    (lib.rect area).overlaps (lineRect p q) = true
  center : ∀ geo, (lib.objRect geo).Contains (lib.center geo)

variable {fence : Fence G A R} {cmd : FenceCmd} {area : A}

theorem FenceLib.Boxed.fenceMatchObject (hbox : lib.Boxed) {o : Object G}
    (hmatch : fenceMatchObject lib cmd area (some o) = true) :
    (lib.rect area).overlaps (lib.objRect o.geo) = true := by
  cases cmd with
  | nearby => exact hbox.intersects hmatch
  | within => exact hbox.within hmatch
  | intersects => exact hbox.intersects hmatch

omit [LinearOrder K] in
/-- What a detection other than `outside` says of the objects. -/
theorem staticDetect_cases {command id : Bytes} {old : Option (Object G)} {o : Object G}
    {detect : Detect} (hdetect : staticDetect lib fence cmd area command id old o = some detect) :
    detect = .outside ∨
      (detect ≠ .cross ∧
        (fenceMatchObject lib cmd area old = true ∨
          fenceMatchObject lib cmd area (some o) = true)) ∨
      detect = .cross ∧ ∃ old', old = some old' ∧
        lib.lineIntersects (lib.center old'.geo) (lib.center o.geo) area = true := by
  unfold staticDetect at hdetect
  dsimp only at hdetect
  split at hdetect
  · rename_i hboth
    obtain rfl := Option.some.inj hdetect
    simp only [Bool.and_eq_true] at hboth
    exact .inr (.inl ⟨by decide, .inl hboth.1.1⟩)
  split at hdetect
  · rename_i hold
    obtain rfl := Option.some.inj hdetect
    simp only [Bool.and_eq_true] at hold
    exact .inr (.inl ⟨by decide, .inl hold.1.1⟩)
  split at hdetect
  · rename_i hnew
    obtain rfl := Option.some.inj hdetect
    simp only [Bool.and_eq_true] at hnew
    exact .inr (.inl ⟨by split <;> decide, .inr hnew.2.1⟩)
  split at hdetect
  · split at hdetect
    · cases hdetect
    cases old with
    | none => exact .inl (Option.some.inj hdetect).symm
    | some old' =>
      rcases ite_eq_iff.mp hdetect with ⟨hcross, hdetect⟩ | ⟨-, hdetect⟩
      · rw [Bool.and_eq_true] at hcross
        exact .inr (.inr ⟨(Option.some.inj hdetect).symm, old', rfl, hcross.2⟩)
      · exact .inl (Option.some.inj hdetect).symm
  · exact .inl (Option.some.inj hdetect).symm

/-- Without `outside` the fallback keeps what is wanted. -/
theorem settle_cases (hout : fence.wants .outside = false) {detect detect' : Detect}
    (hsettle : settle fence detect = some detect') :
    detect ≠ .outside ∧ detect ≠ .roam ∧ (detect = .cross → fence.detectsCross = true) := by
  have hsome : ∃ l, fence.detect = some l := by
    cases hdetect : fence.detect with
    | none => simp [Fence.wants, hdetect] at hout
    | some l => exact ⟨l, rfl⟩
  obtain ⟨l, hl⟩ := hsome
  have hroam : fence.wants .roam = false := by
    have hnot := fence.no_roam l hl
    simp [Fence.wants, hl, hnot]
  unfold settle at hsettle
  refine ⟨?_, ?_, ?_⟩
  · rintro rfl
    simp [hout] at hsettle
  · rintro rfl
    simp [hroam] at hsettle
  · rintro rfl
    have hwants : fence.wants .cross = true := by
      cases hcross : fence.wants .cross with
      | true => rfl
      | false => simp [hcross, hout] at hsettle
    rw [Fence.wants, hl] at hwants
    rw [Fence.detectsCross, hl]
    exact hwants

omit [LinearOrder K] in
/-- A message for a command other than DROP and DEL comes from a detection. -/
theorem exists_detect (hdrop : d.command ≠ lit "drop") (hdel : d.command ≠ lit "del") {hook : Bytes}
    (hmsgs : fenceMatch lib hook fence d ≠ []) :
    ∃ id o detect detect', d.obj = some (id, o) ∧ settle fence detect = some detect' ∧
      (detect = .roam ∨ ∃ cmd area, fence.area = .static cmd area ∧
        staticDetect lib fence cmd area d.command id d.old o = some detect) := by
  unfold fenceMatch at hmsgs
  rw [if_neg hdrop] at hmsgs
  cases hobj : d.obj with
  | none => simp [hobj] at hmsgs
  | some item =>
    obtain ⟨id, o⟩ := item
    rw [hobj] at hmsgs
    simp only [if_neg hdel, ne_eq, ite_eq_left_iff, Classical.not_imp] at hmsgs
    obtain ⟨-, -, -, hsend⟩ := hmsgs
    cases harea : fence.area with
    | roaming roam =>
      simp only [harea, ite_eq_left_iff, Classical.not_imp] at hsend
      cases hsettle : settle fence .roam with
      | none => simp [hsettle] at hsend
      | some detect' => exact ⟨id, o, .roam, detect', rfl, hsettle, .inl rfl⟩
    | static cmd area =>
      cases hdetect : staticDetect lib fence cmd area d.command id d.old o with
      | none => simp [harea, hdetect] at hsend
      | some detect =>
        cases hsettle : settle fence detect with
        | none => simp [harea, hdetect, hsettle] at hsend
        | some detect' =>
          exact ⟨id, o, detect, detect', rfl, hsettle, .inr ⟨cmd, area, rfl, hdetect⟩⟩

/-- A command other than DROP and DEL brings up every hook that has a message
for it. -/
theorem comesUp_of_match (hbox : lib.Boxed) (hdrop : d.command ≠ lit "drop")
    (hdel : d.command ≠ lit "del") (hmsgs : fenceMatch lib h.name h.fence d ≠ []) :
    ComesUp lib h d := by
  cases hout : h.fence.wants .outside with
  | true => exact .inl hout
  | false =>
    obtain ⟨id, o, detect, detect', hobj, hsettle, hdetect⟩ := exists_detect hdrop hdel hmsgs
    obtain ⟨houtside, hroam, hcross⟩ := settle_cases hout hsettle
    obtain ⟨cmd, area, harea, hstatic⟩ := hdetect.resolve_left hroam
    have hrect : h.rect? lib = some (lib.rect area) := by
      rw [Hooks.Hook.rect?, harea]
    refine .inr ⟨_, hrect, ?_⟩
    rcases staticDetect_cases hstatic with heq | ⟨-, hold | hnew⟩ | ⟨heq, old, hold, hline⟩
    · exact absurd heq houtside
    · -- the old object is inside
      cases hd : d.old with
      | none => simp [hd, fenceMatchObject] at hold
      | some old =>
        rw [hd] at hold
        exact .inl (.inl ⟨old, hd, hbox.fenceMatchObject hold⟩)
    · exact .inl (.inr ⟨id, o, hobj, hbox.fenceMatchObject hnew⟩)
    · -- the line between the two is
      have hover := overlaps_union (hbox.center old.geo) (hbox.center o.geo) (hbox.line hline)
      exact .inr ⟨hcross heq, old, id, o, hold, hobj, hover⟩

end

/-! ## The details of the commands -/

section Notices

variable {N G : Type} [LinearOrder N] {lib : ServerLib N G} {env : Env} {s : ServerState G}

/-- The details that `writeAOF` calls `queueHooks` with: those of the command,
or its children. -/
def Result.notices : Result G → List (Details G)
  | .ok _ d =>
    if !d.updated then []
    else if d.parent then
      d.children.map fun child =>
        { command := lit "del", key := d.key, obj := child.2.map fun o => (child.1, o)
          updated := true }
    else [d]
  | _ => []

/-- DEL and DROP give no old object, DROP gives none at all. -/
structure Details.Given (d : Details G) : Prop where
  del : d.command = lit "del" → d.old = none
  drop : d.command = lit "drop" → d.old = none ∧ d.obj = none

def Result.Gives (r : Result G) : Prop := ∀ d ∈ r.notices, d.Given

theorem Result.Gives.err (e : Err) : (Result.err e : Result G).Gives := by
  simp [Result.Gives, Result.notices]

theorem Result.Gives.ok {r : Reply G} {d : Details G} (hparent : d.parent = false)
    (hgiven : d.Given) : (Result.ok r d).Gives := by
  intro d' hd'
  simp only [Result.notices, hparent, Bool.false_eq_true, if_false] at hd'
  split at hd'
  · cases hd'
  · exact mem_singleton.mp hd' ▸ hgiven

theorem Result.Gives.idle {r : Reply G} : (Result.ok r {} : Result G).Gives := by
  simp [Result.Gives, Result.notices]

theorem Details.Given.of_command {d : Details G} (h : d.command ∉ [lit "del", lit "drop"]) :
    d.Given := by
  simp only [mem_cons, not_mem_nil, or_false, not_or] at h
  exact ⟨fun hdel => absurd hdel h.1, fun hdrop => absurd hdrop h.2⟩

theorem execSET_gives (a : SetArgs N G) (geo : Geometry G) : (execSET lib env s a geo).1.Gives := by
  rcases execSET_cases lib env s a geo with ⟨-, r, heq, hr⟩ | ⟨-, -, r, -, heq⟩
  · rw [heq]
    rcases hr with rfl | ⟨-, e, rfl⟩
    · exact .idle
    · exact .err _
  · have hset : lit "set" ∉ [lit "del", lit "drop"] := by decide
    rw [heq]
    exact .ok rfl (.of_command hset)

theorem execFSET_gives (a : FsetArgs N) : (execFSET lib env s a).1.Gives := by
  have hfset : lit "fset" ∉ [lit "del", lit "drop"] := by decide
  unfold execFSET
  dsimp only
  split
  · exact .err _
  split
  · split
    · split
      · rename_i opts _
        rcases objectResponse_none env opts ({} : Details G) with hreply | hreply
        · rw [hreply]
          exact .idle
        · simp [hreply, Result.Gives, Result.notices]
      · exact .idle
    · exact .err _
  · split <;> exact .ok rfl (.of_command hfset)

theorem cmdDEL_gives (args : List Bytes) : (cmdDEL env s args).1.Gives := by
  have hdel : lit "del" ≠ lit "drop" := by decide
  have hdone : ∀ {r : Reply G} {key : Bytes} {obj : Option (Bytes × Object G)} {updated : Bool},
      (Result.ok r { command := lit "del", key, obj, updated }).Gives :=
    .ok rfl ⟨fun _ => rfl, fun h => absurd h hdel⟩
  unfold cmdDEL
  dsimp only
  split
  · split
    · exact .err _
    split
    · split
      · split <;> exact hdone
      split
      · exact .err _
      · exact hdone
    · split
      · exact .err _
      · exact hdone
  · exact .err _

omit [LinearOrder N] in
theorem cmdPDEL_gives (args : List Bytes) : (cmdPDEL lib env s args).1.Gives := by
  have hdel : lit "del" ≠ lit "drop" := by decide
  -- the children are the details of a DEL each
  have hdone : ∀ {r : Reply G} {key pattern : Bytes} {children : List (Bytes × Option (Object G))}
      {updated : Bool}, (Result.ok r {
        command := lit "pdel", key, pattern, children, parent := true, updated }).Gives := by
    intro r key pattern children updated d hd
    simp only [Result.notices, if_true] at hd
    split at hd
    · cases hd
    · obtain ⟨child, -, rfl⟩ := mem_map.mp hd
      exact ⟨fun _ => rfl, fun h => absurd h hdel⟩
  unfold cmdPDEL
  dsimp only
  split
  · split
    · exact hdone
    · split <;> exact hdone
  · exact .err _

theorem cmdDROP_gives (args : List Bytes) : (cmdDROP env s args).1.Gives := by
  unfold cmdDROP
  split
  · exact .ok rfl ⟨fun _ => rfl, fun _ => ⟨rfl, rfl⟩⟩
  · exact .err _

/-- The details of SET, FSET, DEL, PDEL and DROP; an expiration is a DEL. -/
theorem ObjectOp.gives {op : ObjectOp} (hop : op.handler ∈ [Handler.set, .fset, .del, .pdel, .drop])
    (s : ServerState G) : (op.call lib s).1.Gives := by
  obtain ⟨handler, env, args⟩ := op
  simp only [mem_cons, not_mem_nil, or_false] at hop
  rcases hop with rfl | rfl | rfl | rfl | rfl
  · show (cmdSET lib env s args).1.Gives
    unfold cmdSET
    split
    · exact .err _
    split
    · exact .err _
    · exact execSET_gives _ _
  · show (cmdFSET lib env s args).1.Gives
    unfold cmdFSET
    split
    · exact .err _
    split
    · exact .err _
    · exact execFSET_gives _
  · exact cmdDEL_gives args
  · exact cmdPDEL_gives args
  · exact cmdDROP_gives args

end Notices

/-! ## Messages that are lost -/

section Lost

variable {G A R M K : Type} [LinearOrder K] (lib : FenceLib G A R M K)

/-- The command has a message for the hook wherever the object is, and the hook
does not come up for it. -/
def Suppressed (h : Hooks.Hook G A R) (d : Details G) : Prop :=
  h.fence.wants .outside = false ∧ h.fence.accepts d.command = true ∧
    (d.command = lit "drop" ∨
      d.command = lit "del" ∧ ∃ id o, d.obj = some (id, o) ∧
        multiGlobMatch h.fence.globs id = true ∧ o.geo.isSpatial = true ∧
        ∀ rect, h.rect? lib = some rect → rect.overlaps (lib.objRect o.geo) = false)

variable {lib} {t : Hooks.Tables G A R K} {h : Hooks.Hook G A R} {d : Details G} {hook : Bytes}
  {fence : Fence G A R}

omit [LinearOrder K] in
theorem FenceMatch_drop (hdrop : d.command = lit "drop") :
    FenceMatch lib hook fence d ≠ [] ↔ fence.accepts d.command = true := by
  rw [FenceMatch_eq, fenceMatch, if_pos hdrop, hdrop]
  cases haccept : fence.accepts (lit "drop") <;> simp [haccept, FenceMsg.command]

omit [LinearOrder K] in
theorem FenceMatch_del (hdel : d.command = lit "del") :
    FenceMatch lib hook fence d ≠ [] ↔
      fence.accepts d.command = true ∧ ∃ id o, d.obj = some (id, o) ∧
        multiGlobMatch fence.globs id = true ∧ o.geo.isSpatial = true := by
  have hdrop : lit "del" ≠ lit "drop" := by decide
  have hfset : lit "del" ≠ lit "fset" := by decide
  rw [FenceMatch_eq, fenceMatch, hdel, if_neg hdrop]
  cases d.obj with
  | none => simp
  | some item =>
    obtain ⟨id, o⟩ := item
    simp only [hfset, false_and, if_false, if_true]
    cases haccept : fence.accepts (lit "del") <;> cases hglobs : multiGlobMatch fence.globs id <;>
      cases hspatial : o.geo.isSpatial <;>
      simp [haccept, hglobs, hspatial, FenceMsg.command]

/-- A message is lost exactly if the hook has one and does not come up. -/
theorem suppressed_iff (hbox : lib.Boxed) (hd : d.Given) :
    Suppressed lib h d ↔ FenceMatch lib h.name h.fence d ≠ [] ∧ ¬ ComesUp lib h d := by
  by_cases hdrop : d.command = lit "drop"
  · obtain ⟨hold, hobj⟩ := hd.drop hdrop
    rw [FenceMatch_drop hdrop, Suppressed, ComesUp]
    simp [hdrop, Near, NearLine, hold, hobj, and_comm]
  by_cases hdel : d.command = lit "del"
  · have hold := hd.del hdel
    rw [FenceMatch_del hdel, Suppressed, ComesUp]
    cases hobj : d.obj with
    | none => simp [hdrop]
    | some item =>
      obtain ⟨id, o⟩ := item
      have hne : lit "del" ≠ lit "drop" := by decide
      simp [hne, hdel, Near, NearLine, hold, hobj]
      tauto
  have hnot : ¬ Suppressed lib h d := by
    rintro ⟨-, -, hcommand | ⟨hcommand, -⟩⟩
    · exact hdrop hcommand
    · exact hdel hcommand
  refine iff_of_false hnot ?_
  rintro ⟨hmsgs, hup⟩
  refine hup (comesUp_of_match hbox hdrop hdel ?_)
  intro hnil
  rw [FenceMatch_eq, hnil] at hmsgs
  exact hmsgs rfl

/-- A fence signs its messages. -/
theorem hook_of_mem_detectMsgs {o : Item G} {roamed : List M × List M} {detect : Detect} :
    ∀ msg ∈ detectMsgs hook fence d o roamed detect, msg.hook = hook := by
  unfold detectMsgs
  split
  · simp
  cases detect with
  | inside => simp [FenceMsg.hook]
  | outside => simp [FenceMsg.hook]
  | enter => cases fence.wants .inside <;> simp [FenceMsg.hook]
  | exit => cases fence.wants .outside <;> simp [FenceMsg.hook]
  | cross => cases fence.wants .outside <;> simp [FenceMsg.hook]
  | roam =>
    simp only [forall_mem_append, forall_mem_map]
    refine ⟨⟨?_, fun _ _ => rfl⟩, fun _ _ => rfl⟩
    split <;> simp [FenceMsg.hook]

variable {msg : FenceMsg G M} {hooks : List (Hooks.Hook G A R)}

omit [LinearOrder K] in
theorem hook_of_mem_FenceMatch (hmsg : msg ∈ FenceMatch lib hook fence d) : msg.hook = hook := by
  rw [FenceMatch_eq] at hmsg
  have hmem := mem_of_mem_filter hmsg
  unfold fenceMatch at hmem
  split at hmem
  · rw [mem_singleton.mp hmem]
    rfl
  split at hmem
  · cases hmem
  simp only [mem_ite_nil_left] at hmem
  obtain ⟨-, -, -, hmem⟩ := hmem
  split at hmem
  · rw [mem_singleton.mp hmem]
    rfl
  split at hmem
  · obtain ⟨-, hmem⟩ := mem_ite_nil_left.mp hmem
    split at hmem
    · cases hmem
    · exact hook_of_mem_detectMsgs msg hmem
  split at hmem
  · cases hmem
  split at hmem
  · cases hmem
  · exact hook_of_mem_detectMsgs msg hmem

/-- What `sortMsgs` sorts by. -/
def msgKey (msg : FenceMsg G M) : Nat ×ₗ Bytes := toLex (msgDetectCode msg, msg.hook)

theorem msgLess_iff (a b : FenceMsg G M) : msgLess a b = true ↔ msgKey a < msgKey b := by
  rw [msgKey, msgKey, Prod.Lex.toLex_lt_toLex, msgLess]
  split
  · simp [*]
  split
  · rename_i hlt hgt
    simp only [Bool.false_eq_true, false_iff, not_or, not_and]
    exact ⟨hlt, fun heq => absurd heq (ne_of_gt hgt)⟩
  rename_i hlt hgt
  have heq : msgDetectCode a = msgDetectCode b := le_antisymm (not_lt.mp hgt) (not_lt.mp hlt)
  simp [heq]

theorem mem_sortMsgs {msgs : List (FenceMsg G M)} : msg ∈ sortMsgs msgs ↔ msg ∈ msgs :=
  (StdSort.stable.run_of_key msgLess_iff msgs).1.mem_iff

omit [LinearOrder K] in
/-- The messages of one name are those of the hooks of that name. -/
theorem filter_hook_msgs (hooks : List (Hooks.Hook G A R)) (name : Bytes) :
    (hooks.flatMap fun h => FenceMatch lib h.name h.fence d).filter (fun msg => msg.hook = name) =
      (hooks.filter fun h => h.name = name).flatMap fun h => FenceMatch lib h.name h.fence d := by
  induction hooks with
  | nil => rfl
  | cons h hooks ih =>
    rw [flatMap_cons, filter_append, ih, filter_cons]
    by_cases hname : h.name = name
    · have hall : (FenceMatch lib h.name h.fence d).filter (fun msg => msg.hook = name) =
          FenceMatch lib h.name h.fence d := by
        refine filter_eq_self.mpr ?_
        intro msg hmsg
        rw [hook_of_mem_FenceMatch hmsg, hname, decide_eq_true_eq]
      rw [hall, if_pos (decide_eq_true hname), flatMap_cons]
    have hnone : (FenceMatch lib h.name h.fence d).filter (fun msg => msg.hook = name) = [] := by
      refine filter_eq_nil_iff.mpr ?_
      intro msg hmsg
      rw [hook_of_mem_FenceMatch hmsg, decide_eq_true_eq]
      exact hname
    rw [hnone, if_neg (by simpa using hname), nil_append]

omit [LinearOrder K] in
/-- Messages are sorted alike if for each name they come from the same hooks. -/
theorem sortMsgs_congr {hooks' : List (Hooks.Hook G A R)}
    (heq : ∀ name, ((hooks.filter fun h => h.name = name).flatMap fun h =>
        FenceMatch lib h.name h.fence d) =
      (hooks'.filter fun h => h.name = name).flatMap fun h => FenceMatch lib h.name h.fence d) :
    sortMsgs (hooks.flatMap fun h => FenceMatch lib h.name h.fence d) =
      sortMsgs (hooks'.flatMap fun h => FenceMatch lib h.name h.fence d) := by
  refine StdSort.stable_congr msgLess_iff ?_
  intro key
  -- the key names the hook
  have hkey : ∀ {p : FenceMsg G M → Bool}, (∀ msg, p msg = true → msg.hook = (ofLex key).2) →
      ∀ msgs : List (FenceMsg G M),
        msgs.filter p = (msgs.filter fun msg => msg.hook = (ofLex key).2).filter p := by
    intro p hp msgs
    rw [filter_filter]
    refine filter_congr ?_
    intro msg _
    cases hmsg : p msg with
    | true => simp [hp msg hmsg]
    | false => rfl
  have hnames : ∀ msg : FenceMsg G M, msgKey msg = key → msg.hook = (ofLex key).2 := by
    rintro msg rfl
    rfl
  rw [hkey (by simpa using hnames), hkey (by simpa using hnames) (hooks'.flatMap _),
    filter_hook_msgs, filter_hook_msgs, heq]

/-- The hooks that a live fence of each would stand for. -/
def hooksOfKey (t : Hooks.Tables G A R K) (d : Details G) : List (Hooks.Hook G A R) :=
  t.hooks.values.filter fun h => h.fence.key = d.key

omit [LinearOrder K] in
theorem Hooks.Tables.Inv.mem_hooksOfKey (hinv : t.Inv lib) :
    h ∈ hooksOfKey t d ↔ Registered t d h := by
  rw [hooksOfKey, mem_filter, hinv.mem_values, decide_eq_true_eq, Registered]

omit [LinearOrder K] in
/-- A slice of registered hooks has each name once. -/
theorem filter_name_eq (hnodup : hooks.Nodup) (hreg : ∀ h ∈ hooks, Registered t d h)
    (hmem : h ∈ hooks) :
    hooks.filter (fun h' => h'.name = h.name) = [h] := by
  have hsame : ∀ h' ∈ hooks.filter (fun h' => h'.name = h.name), h' = h := by
    intro h' hh'
    rw [mem_filter, decide_eq_true_eq] at hh'
    have hget := (hreg h' hh'.1).1
    rw [hh'.2, (hreg h hmem).1] at hget
    exact (Option.some.inj hget).symm
  have hfilter := eq_replicate_of_mem hsame
  have hlen := hnodup.filter fun h' => decide (h'.name = h.name)
  rw [hfilter, nodup_replicate] at hlen
  have hne : (hooks.filter fun h' => h'.name = h.name).length ≠ 0 := by
    rw [ne_eq, length_eq_zero_iff]
    exact ne_nil_of_mem (mem_filter.mpr ⟨hmem, by simp⟩)
  rw [hfilter, le_antisymm hlen (Nat.one_le_iff_ne_zero.mpr hne)]
  rfl

omit [LinearOrder K] in
/-- Leaving out hooks without a message changes nothing. -/
theorem sortMsgs_of_subset {all : List (Hooks.Hook G A R)} (hnodup : hooks.Nodup)
    (hnodup' : all.Nodup) (hreg : ∀ h ∈ all, Registered t d h) (hsub : ∀ h ∈ hooks, h ∈ all)
    (hmsgs : ∀ h ∈ all, FenceMatch lib h.name h.fence d ≠ [] → h ∈ hooks) :
    sortMsgs (hooks.flatMap fun h => FenceMatch lib h.name h.fence d) =
      sortMsgs (all.flatMap fun h => FenceMatch lib h.name h.fence d) := by
  refine sortMsgs_congr ?_
  intro name
  by_cases hex : ∃ h ∈ all, h.name = name
  · obtain ⟨h, hmem, rfl⟩ := hex
    rw [filter_name_eq hnodup' hreg hmem]
    by_cases hin : h ∈ hooks
    · rw [filter_name_eq hnodup (fun h hh => hreg h (hsub h hh)) hin]
    have hnil : FenceMatch lib h.name h.fence d = [] := not_not.mp fun hne => hin (hmsgs h hmem hne)
    have hnone : hooks.filter (fun h' => h'.name = h.name) = [] := by
      refine filter_eq_nil_iff.mpr ?_
      intro h' hh' hname
      rw [decide_eq_true_eq] at hname
      have hget := (hreg h' (hsub h' hh')).1
      rw [hname, (hreg h hmem).1] at hget
      exact hin (Option.some.inj hget ▸ hh')
    simp [hnone, hnil]
  have hnone : ∀ hooks' : List (Hooks.Hook G A R), (∀ h ∈ hooks', h ∈ all) →
      hooks'.filter (fun h => h.name = name) = [] := by
    intro hooks' hsub'
    refine filter_eq_nil_iff.mpr ?_
    intro h hh hname
    exact hex ⟨h, hsub' h hh, by simpa using hname⟩
  rw [hnone hooks hsub, hnone all fun _ => id]

omit [LinearOrder K] in
theorem mem_part {p : Hooks.Hook G A R → Bool} :
    msg ∈ sortMsgs ((hooks.filter p).flatMap fun h => FenceMatch lib h.name h.fence d) ↔
      ∃ h ∈ hooks, p h = true ∧ msg ∈ FenceMatch lib h.name h.fence d := by
  simp [mem_sortMsgs, and_assoc]

/-- `queueHooks` has the messages of every hook on the key exactly if no hook
without `outside` meets a DROP, or a deletion away from its fence. -/
theorem queueHooks_complete_iff {N : Type} [LinearOrder N] [DecidableEq (Hooks.Hook G A R)]
    {slib : ServerLib N G} (hbox : lib.Boxed) {hookOps : List (Hooks.Op G A R)}
    (hrun : Hooks.run slib lib hookOps = some t) {op : ObjectOp}
    (hop : op.handler ∈ [Handler.set, .fset, .del, .pdel, .drop]) {s : ServerState G}
    (hd : d ∈ (op.call slib s).1.notices) {candidates all : List (Hooks.Hook G A R)}
    (hcand : SliceOf (getQueueCandidates lib t d) candidates)
    (hall : SliceOf (hooksOfKey t d) all) :
    queueMsgs lib candidates d = queueMsgs lib all d ↔
      ∀ h, Registered t d h → ¬ Suppressed lib h d := by
  have hinv : t.Inv lib := Hooks.run_inv hrun
  have hgiven : d.Given := op.gives hop s d hd
  have hmem : ∀ h, h ∈ candidates ↔ Registered t d h ∧ ComesUp lib h d := by
    intro h
    rw [hcand.mem, hinv.mem_candidates]
  have hmem' : ∀ h, h ∈ all ↔ Registered t d h := by
    intro h
    rw [hall.mem, Multiset.mem_coe, hinv.mem_hooksOfKey]
  rw [queueMsgs, queueMsgs, Prod.mk.injEq]
  constructor
  · rintro ⟨hchannel, hhook⟩ h hreg hsup
    obtain ⟨hmsgs, hup⟩ := (suppressed_iff hbox hgiven).mp hsup
    obtain ⟨msg, hmsg⟩ := exists_mem_of_ne_nil _ hmsgs
    -- the message of `h` would come from a candidate of the same name
    have hlost : ∀ p : Hooks.Hook G A R → Bool, p h = true →
        sortMsgs ((candidates.filter p).flatMap fun h => FenceMatch lib h.name h.fence d) ≠
          sortMsgs ((all.filter p).flatMap fun h => FenceMatch lib h.name h.fence d) := by
      intro p hp heq
      have hin := mem_part.mpr ⟨h, (hmem' h).mpr hreg, hp, hmsg⟩
      rw [← heq] at hin
      obtain ⟨h', hcand', -, hmsg'⟩ := mem_part.mp hin
      obtain ⟨hreg', hup'⟩ := (hmem h').mp hcand'
      have hname : h'.name = h.name := by
        rw [← hook_of_mem_FenceMatch hmsg', hook_of_mem_FenceMatch hmsg]
      have hget := hreg'.1
      rw [hname, hreg.1] at hget
      exact hup (Option.some.inj hget ▸ hup')
    cases hc : h.channel with
    | true => exact hlost (fun h => h.channel) hc hchannel
    | false => exact hlost (fun h => !h.channel) (by simp [hc]) hhook
  · intro hnone
    have hpart : ∀ p : Hooks.Hook G A R → Bool,
        sortMsgs ((candidates.filter p).flatMap fun h => FenceMatch lib h.name h.fence d) =
          sortMsgs ((all.filter p).flatMap fun h => FenceMatch lib h.name h.fence d) := by
      intro p
      refine sortMsgs_of_subset (hcand.nodup.filter p) (hall.nodup.filter p)
        (fun h hh => (hmem' h).mp (mem_of_mem_filter hh)) ?_ ?_
      · intro h hh
        rw [mem_filter] at hh ⊢
        exact ⟨(hmem' h).mpr ((hmem h).mp hh.1).1, hh.2⟩
      · intro h hh hmsgs
        rw [mem_filter] at hh ⊢
        have hreg := (hmem' h).mp hh.1
        have hup : ComesUp lib h d := by
          by_contra hup
          exact hnone h hreg ((suppressed_iff hbox hgiven).mpr ⟨hmsgs, hup⟩)
        exact ⟨(hmem h).mpr ⟨hreg, hup⟩, hh.2⟩
    exact ⟨hpart _, hpart _⟩

end Lost

/-! ## The hooks of the yard -/

/-- A hook on the yard that does not ask for `outside`. -/
def gateHook : Hooks.Hook Bool Unit Unit where
  name := lit "gate"
  channel := false
  fence := { yardFence with detect := some [.inside, .enter, .exit], no_roam := by decide }
  endpoints := [lit "http://gate"]
  metas := []
  args := [lit "WITHIN", lit "gate"]
  expires := none

/-- A channel for all that happens. -/
def watchChan : Hooks.Hook Bool Unit Unit where
  name := lit "watch"
  channel := true
  fence := yardFence
  endpoints := [lit "local://watch"]
  metas := []
  args := [lit "WITHIN"]
  expires := none

def yardOps : List (Hooks.Op Bool Unit Unit) :=
  let env : Hooks.HookEnv Bool Unit Unit :=
    { out := .resp, now := 0, validate := fun _ => true
      cmdSearchArgs := fun _ vs => .ok (if vs = [] then watchChan.fence else gateHook.fence) }
  [.command env [lit "SETHOOK", lit "gate", lit "http://gate", lit "WITHIN", lit "gate"],
    .command env [lit "SETCHAN", lit "watch", lit "WITHIN"]]

def yardTables : Hooks.Tables Bool Unit Unit Int :=
  ((({ : Hooks.Tables Bool Unit Unit Int }.register gateHook).link yardFenceLib gateHook).register
    watchChan).link yardFenceLib watchChan

theorem run_yardOps [DecidableEq (Hooks.Hook Bool Unit Unit)] :
    Hooks.run yardLib yardFenceLib yardOps = some yardTables := rfl

theorem yardFenceLib_boxed : yardFenceLib.Boxed := by
  refine ⟨?_, ?_, ?_, ?_⟩
  · intro geo area hgeo
    have heq : geo = .spatial true := by simpa [yardFenceLib] using hgeo
    rw [heq]
    rfl
  · intro geo area hgeo
    have heq : geo = .spatial true := by simpa [yardFenceLib] using hgeo
    rw [heq]
    rfl
  · intro p q area hline
    cases hline
  · intro geo
    by_cases hgeo : geo = .spatial true <;> simp [yardFenceLib, hgeo, Rect.Contains]

/-- The details of a command on the truck, out of the yard. -/
def truckOut (command : Bytes) : Details Bool :=
  { command, key := lit "fleet", obj := some (lit "truck", ⟨.spatial false, 0, OrdMap.empty⟩)
    updated := true }

/-- The gate does not come up for a truck far away, and has no message. -/
theorem queueHooks_complete_iff_far :
    getQueueCandidates yardFenceLib yardTables (truckOut (lit "set")) = [watchChan] ∧
    hooksOfKey yardTables (truckOut (lit "set")) = [gateHook, watchChan] ∧
    queueMsgs yardFenceLib [watchChan] (truckOut (lit "set")) =
      queueMsgs yardFenceLib [gateHook, watchChan] (truckOut (lit "set")) := by
  have hcand : getQueueCandidates yardFenceLib yardTables (truckOut (lit "set")) = [watchChan] :=
    rfl
  have hall : hooksOfKey yardTables (truckOut (lit "set")) = [gateHook, watchChan] := rfl
  have hne : gateHook ≠ watchChan := by
    intro heq
    cases congrArg Hooks.Hook.args heq
  have hnotices : ((truckOp .set [lit "OBJECT", lit "out"]).call yardLib
      ServerState.empty).1.notices = [truckOut (lit "set")] := by
    decide +kernel
  have hset : lit "set" ∉ [lit "drop", lit "del"] := by decide
  simp only [mem_cons, not_mem_nil, or_false, not_or] at hset
  classical
  refine ⟨hcand, hall, (queueHooks_complete_iff yardFenceLib_boxed run_yardOps (by decide)
    (hnotices ▸ mem_singleton_self _) ⟨nodup_singleton _, ?_⟩
    ⟨by simp [hne], ?_⟩).mpr ?_⟩
  · intro h
    rw [hcand, Multiset.mem_coe]
  · intro h
    rw [← hall]
    exact Iff.rfl
  · rintro h - ⟨-, -, hdrop | ⟨hdel, -⟩⟩
    · exact hset.1 hdrop
    · exact hset.2 hdel

/-- The gate has a message when the truck is deleted, wherever it is, and when
the fleet is dropped.  It comes up for neither. -/
theorem queueHooks_loses :
    (let d := truckOut (lit "del")
    d ∈ ((truckOp .del []).call yardLib ((truckOp .set [lit "OBJECT", lit "out"]).call yardLib
      ServerState.empty).2).1.notices ∧
    getQueueCandidates yardFenceLib yardTables d = [watchChan] ∧
    queueMsgs yardFenceLib [watchChan] d = ([.del (lit "watch") (lit "fleet") (lit "truck")], []) ∧
    queueMsgs yardFenceLib (hooksOfKey yardTables d) d =
      ([.del (lit "watch") (lit "fleet") (lit "truck")],
        [.del (lit "gate") (lit "fleet") (lit "truck")])) ∧
    let d : Details Bool := { command := lit "drop", key := lit "fleet", updated := true }
    d ∈ (ObjectOp.call yardLib ⟨.drop, {}, [lit "drop", lit "fleet"]⟩
      ((truckOp .set [lit "OBJECT", lit "in"]).call yardLib ServerState.empty).2).1.notices ∧
    getQueueCandidates yardFenceLib yardTables d = [watchChan] ∧
    queueMsgs yardFenceLib [watchChan] d = ([.drop (lit "watch") (lit "fleet")], []) ∧
    queueMsgs yardFenceLib (hooksOfKey yardTables d) d =
      ([.drop (lit "watch") (lit "fleet")], [.drop (lit "gate") (lit "fleet")]) := by
  have hone : ∀ msg : FenceMsg Bool Unit, sortMsgs [msg] = [msg] := mergeSort_singleton
  have hnil : sortMsgs ([] : List (FenceMsg Bool Unit)) = [] := mergeSort_nil
  refine ⟨⟨by decide +kernel, rfl, ?_, ?_⟩, ⟨by decide +kernel, rfl, ?_, ?_⟩⟩
  · exact Prod.ext (hone _) hnil
  · exact Prod.ext (hone _) (hone _)
  · exact Prod.ext (hone _) hnil
  · exact Prod.ext (hone _) (hone _)

end SpatialDb.Server

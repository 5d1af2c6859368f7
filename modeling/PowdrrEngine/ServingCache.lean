import PowdrrEngine.LibRun
import PowdrrEngine.ServingPruning
import PowdrrEngine.ServingLookupSql

/-! The snapshot lookup cache of a checkpoint over a history of calls. The cache is kept under the name
of the checkpoint alone, but a serving request fills it from the files that pruning left for that
request. A later request is then answered from those files, also where its rows are in others. The
answers are those of a scan over all files as long as every request finds its files in the cache. -/

namespace PowdrrEngine

open List

/-- What is read of a checkpoint: its files, its delete files and the statistics of its files. No lookup
artifact is published for it. -/
structure ServingContext where
  checkpoint : CheckpointDescriptor
  files : List FileDescriptor
  speedboatFiles : List FileDescriptor
  deleteFiles : List String
  fileStats : Dict String IcebergFileStats

/-- The rows of the data files and the keys of the delete files, by path. -/
structure ServingStore where
  rows : String → List ServingRow
  deletedKeys : String → List Value

namespace ServingStore

variable (store : ServingStore)

/-- The join of a scan with the deletes table finds no partner for the row. -/
def survivesDeletes (deleteFiles : List String) (row : ServingRow) : Bool :=
  (row.lookup "_id_seq_no").all fun value => !deleteFiles.any fun path =>
    (store.deletedKeys path).any fun key => (sqlCompare value key).any (·.isEq)

/-- The rows of `snapshot_lookup_full_scan_sql` over some files. -/
def fullScan (deleteFiles : List String) (files : List FileDescriptor) : List ServingRow :=
  files.flatMap fun file => (store.rows file.filePath).filter (store.survivesDeletes deleteFiles)

theorem mem_fullScan {deleteFiles : List String} {files : List FileDescriptor} {row : ServingRow} :
    row ∈ store.fullScan deleteFiles files ↔ ∃ file ∈ files, row ∈ store.fullScan deleteFiles [file] := by
  simp [fullScan]

theorem fullScan_subset (deleteFiles : List String) {files files' : List FileDescriptor}
    (h : ∀ file ∈ files, file ∈ files') :
    ∀ row ∈ store.fullScan deleteFiles files, row ∈ store.fullScan deleteFiles files' := by
  intro row hrow
  obtain ⟨file, hfile, hin⟩ := store.mem_fullScan.mp hrow
  exact store.mem_fullScan.mpr ⟨file, h file hfile, hin⟩

end ServingStore

def checkpointCacheKey (checkpoint : CheckpointDescriptor) : String :=
  checkpoint.tableName ++ ":" ++ checkpoint.checkpointId

/-- `MAX_SNAPSHOT_LOOKUP_CACHE_BYTES`. -/
def maxSnapshotLookupCacheBytes : Nat := 256 * 1024 * 1024

/-- `SNAPSHOT_LOOKUP_CACHE`: the caches by checkpoint. -/
abbrev SnapshotLookupCaches := Dict String SnapshotLookupCache

/-- The calls that use the cache of a checkpoint. A serving request is one that was planned and
admitted; the others come from the Elasticsearch paths, and the last only fills the cache. -/
inductive SnapshotLookupCall where
  | serve (request : ReadPlan)
  | pointLookup (request : ReadPlan)
  | batch (requests : List ReadPlan)
  | warm

def SnapshotLookupCall.requests : SnapshotLookupCall → List ReadPlan
  | .serve request | .pointLookup request => [request]
  | .batch requests => requests
  | .warm => []

section

variable (store : ServingStore) (hash : SnapshotLookupKey → Nat) (text : Value → String) (context : ServingContext)
  (caches : SnapshotLookupCaches)

def getOrBuildSnapshotLookupCache (files : List FileDescriptor) : SnapshotLookupCache × SnapshotLookupCaches :=
  let key := checkpointCacheKey context.checkpoint
  match caches.lookup key with
  | some cache => (cache, caches)
  | none =>
    let built := buildInMemorySnapshotLookupCache hash (store.fullScan context.deleteFiles files)
    (built, caches.insert key built)

def SnapshotLookupCache.answer (cache : SnapshotLookupCache) (request : ReadPlan)
    (plan : SnapshotLookupPlan) (limit : Nat) : List ServingRow :=
  cache.projectedValues request (cache.lookupRowRefs hash text plan limit)

/-- `maybe_execute_snapshot_lookup`; none where the request is left to another path. -/
def maybeExecuteSnapshotLookup (files : List FileDescriptor)
    (request : ReadPlan) (limit : Nat) : Option (List ServingRow) × SnapshotLookupCaches :=
  if files = [] ∨ context.speedboatFiles ≠ [] then (none, caches)
  else
    match snapshotLookupPlan request with
    | none => (none, caches)
    | some plan =>
      if maxSnapshotLookupCacheBytes < (files.map (·.size)).sum then (none, caches)
      else
        let (cache, caches) := getOrBuildSnapshotLookupCache store hash context caches files
        (some (cache.answer hash text request plan limit), caches)

/-- The start of `execute_plan` on the files that `plan_request` selects; a limit of zero is answered
without a lookup. -/
def executeServingRequest (request : ReadPlan) : Option (List ServingRow) × SnapshotLookupCaches :=
  let files := (pruneCandidateFiles context.files context.fileStats request).selectedFiles
  let limit := request.normalizedLimit
  if limit = 0 then (none, caches)
  else maybeExecuteSnapshotLookup store hash text context caches files request limit

def executeCheckpointPointLookupRows (request : ReadPlan) : Option (List ServingRow) × SnapshotLookupCaches :=
  maybeExecuteSnapshotLookup store hash text context caches context.files request request.normalizedLimit

/-- `execute_checkpoint_exact_lookup_batch_rows`: one request without a plan withholds all answers, after
the cache has been filled. -/
def executeCheckpointExactLookupBatchRows (requests : List ReadPlan) :
    Option (List (List ServingRow)) × SnapshotLookupCaches :=
  if requests = [] then (some [], caches)
  else if context.files = [] ∨ context.speedboatFiles ≠ [] then (none, caches)
  else
    let (cache, caches) := getOrBuildSnapshotLookupCache store hash context caches context.files
    (requests.mapM fun request => (snapshotLookupPlan request).map fun plan =>
      cache.answer hash text request plan request.normalizedLimit, caches)

def warmCheckpointPointLookupCaches : SnapshotLookupCaches :=
  if context.files = [] ∨ context.speedboatFiles ≠ [] then caches
  else (getOrBuildSnapshotLookupCache store hash context caches context.files).2

def SnapshotLookupCall.run (call : SnapshotLookupCall) (caches : SnapshotLookupCaches) :
    List (ReadPlan × List ServingRow) × SnapshotLookupCaches :=
  match call with
  | .serve request =>
    let (rows, caches) := executeServingRequest store hash text context caches request
    ((rows.map fun rows => (request, rows)).toList, caches)
  | .pointLookup request =>
    let (rows, caches) := executeCheckpointPointLookupRows store hash text context caches request
    ((rows.map fun rows => (request, rows)).toList, caches)
  | .batch requests =>
    let (rows, caches) := executeCheckpointExactLookupBatchRows store hash text context caches requests
    (requests.zip (rows.getD []), caches)
  | .warm => ([], warmCheckpointPointLookupCaches store hash context caches)

end

/-! ### Histories -/

/-- The files a call fills the cache from where there is none yet. -/
def SnapshotLookupCall.files (context : ServingContext) : SnapshotLookupCall → List FileDescriptor
  | .serve request => (pruneCandidateFiles context.files context.fileStats request).selectedFiles
  | _ => context.files

structure LookupHistory where
  caches : SnapshotLookupCaches
  filled : List FileDescriptor
  answers : List (ReadPlan × List ServingRow)

namespace LookupHistory

section

variable (store : ServingStore) (hash : SnapshotLookupKey → Nat) (text : Value → String) (context : ServingContext)
  (history : LookupHistory)

def isFilled : Bool := (history.caches.lookup (checkpointCacheKey context.checkpoint)).isSome

def step (call : SnapshotLookupCall) : Option LookupHistory :=
  some { caches := (call.run store hash text context history.caches).2
         filled := if history.isFilled context then history.filled else call.files context
         answers := history.answers ++ (call.run store hash text context history.caches).1 }

/-- A request is one whose answer can be compared with a scan, and where the cache is filled, every file
with a row that the request selects is one that it was filled from. -/
def requestOk (request : ReadPlan) : Bool :=
  let rows := store.fullScan context.deleteFiles context.files
  request.limit ≠ some 0 && rows.all request.plain && request.sortable rows &&
    (!history.isFilled context || context.files.all fun file =>
      file ∈ history.filled || !(store.fullScan context.deleteFiles [file]).any (request.holds sqlCompare))

def stepOk (call : SnapshotLookupCall) : Prop :=
  ∀ request ∈ call.requests, history.requestOk store context request = true

instance (call : SnapshotLookupCall) : Decidable (history.stepOk store context call) :=
  inferInstanceAs (Decidable (∀ request ∈ call.requests, history.requestOk store context request = true))

def StatsValid : Prop :=
  ∀ file ∈ context.files, ∀ row ∈ store.fullScan context.deleteFiles [file],
    ∀ stats ∈ context.fileStats.lookup file.filePath, FileStatsValid stats row

/-- Every answer is one that a scan over all files of the checkpoint may give. -/
def Coherent : Prop :=
  ∀ answer ∈ history.answers, IsScanResult answer.1 answer.1.normalizedLimit
    (store.fullScan context.deleteFiles context.files) answer.2

end

/-! ### What a call does -/

section

variable {store : ServingStore} {hash : SnapshotLookupKey → Nat} {text : Value → String} {context : ServingContext}
  {history history' : LookupHistory} {call : SnapshotLookupCall} {request : ReadPlan}

theorem filter_fullScan_filter {deleteFiles : List String} {files : List FileDescriptor}
    {kept : FileDescriptor → Bool} {selects : ServingRow → Bool}
    (h : ∀ file ∈ files, kept file = false → ∀ row ∈ store.fullScan deleteFiles [file], selects row = false) :
    (store.fullScan deleteFiles (files.filter kept)).filter selects =
      (store.fullScan deleteFiles files).filter selects := by
  induction files with
  | nil => rfl
  | cons file files ih =>
    have htail := ih fun other hother => h other (mem_cons_of_mem _ hother)
    have hcons : ∀ fs, store.fullScan deleteFiles (file :: fs) =
        store.fullScan deleteFiles [file] ++ store.fullScan deleteFiles fs := by
      simp [ServingStore.fullScan]
    rw [hcons files, filter_append, ← htail]
    cases hkept : kept file with
    | true => rw [filter_cons_of_pos hkept, hcons, filter_append]
    | false =>
      have hnone : (store.fullScan deleteFiles [file]).filter selects = [] := by
        refine filter_eq_nil_iff.mpr fun row hrow => ?_
        rw [h file mem_cons_self hkept row hrow]
        decide
      rw [filter_cons_of_neg (by simp [hkept]), hnone, nil_append]

section

variable (store hash text context history call)

/-- The checkpoint's cache, if there is one, holds the rows of the files that it was filled from. -/
def CacheInv : Prop :=
  ∀ cache ∈ history.caches.lookup (checkpointCacheKey context.checkpoint),
    cache = buildInMemorySnapshotLookupCache hash (store.fullScan context.deleteFiles history.filled) ∧
      ∃ kept, history.filled = context.files.filter kept

/-- The files behind the cache that a call gets. -/
def source : List FileDescriptor :=
  if history.isFilled context then history.filled else call.files context

def AnsweredBy (cache : SnapshotLookupCache) (answer : ReadPlan × List ServingRow) : Prop :=
  answer.1 ∈ call.requests ∧ ∃ plan, snapshotLookupPlan answer.1 = some plan ∧
    answer.2 = cache.answer hash text answer.1 plan answer.1.normalizedLimit

variable (caches : SnapshotLookupCaches)

theorem maybeExecuteSnapshotLookup_cases {request : ReadPlan} (hrequest : request ∈ call.requests)
    (files : List FileDescriptor) :
    let result := maybeExecuteSnapshotLookup store hash text context caches files request request.normalizedLimit
    let answers := (result.1.map fun rows => (request, rows)).toList
    let got := getOrBuildSnapshotLookupCache store hash context caches files
    (answers = [] ∧ result.2 = caches) ∨
      result.2 = got.2 ∧ ∀ answer ∈ answers, AnsweredBy hash text call got.1 answer := by
  unfold maybeExecuteSnapshotLookup
  dsimp only
  split
  · exact Or.inl ⟨rfl, rfl⟩
  split
  · exact Or.inl ⟨rfl, rfl⟩
  · rename_i plan hplan
    split
    · exact Or.inl ⟨rfl, rfl⟩
    · refine Or.inr ⟨rfl, fun answer hanswer => ?_⟩
      cases mem_singleton.mp hanswer
      exact ⟨hrequest, plan, hplan, rfl⟩

/-- **A call.** It leaves the caches alone and answers nothing through them, or it gets the cache and
answers from it. -/
theorem run_cases :
    ((call.run store hash text context caches).1 = [] ∧ (call.run store hash text context caches).2 = caches) ∨
    (call.run store hash text context caches).2 =
        (getOrBuildSnapshotLookupCache store hash context caches (call.files context)).2 ∧
      ∀ answer ∈ (call.run store hash text context caches).1, AnsweredBy hash text call
        (getOrBuildSnapshotLookupCache store hash context caches (call.files context)).1 answer := by
  cases call with
  | serve request =>
    unfold SnapshotLookupCall.run executeServingRequest
    dsimp only
    split
    · exact Or.inl ⟨rfl, rfl⟩
    · exact maybeExecuteSnapshotLookup_cases store hash text context (.serve request) caches mem_cons_self _
  | pointLookup request =>
    exact maybeExecuteSnapshotLookup_cases store hash text context (.pointLookup request) caches mem_cons_self _
  | batch requests =>
    unfold SnapshotLookupCall.run executeCheckpointExactLookupBatchRows
    dsimp only
    split
    · exact Or.inl ⟨by simp, rfl⟩
    split
    · exact Or.inl ⟨by simp, rfl⟩
    refine Or.inr ⟨rfl, ?_⟩
    cases hrows : requests.mapM fun request => (snapshotLookupPlan request).map fun plan =>
        (getOrBuildSnapshotLookupCache store hash context caches context.files).1.answer hash text
          request plan request.normalizedLimit with
    | none => simp
    | some rows =>
      rintro ⟨request, answer⟩ hanswer
      have hzip := (forall₂_iff_zip.mp (Lists.forall₂_of_mapM hrows)).2 hanswer
      obtain ⟨plan, hplan, heq⟩ := Option.map_eq_some_iff.mp hzip
      exact ⟨(of_mem_zip hanswer).1, plan, hplan, heq.symm⟩
  | warm =>
    unfold SnapshotLookupCall.run warmCheckpointPointLookupCaches
    dsimp only
    split
    · exact Or.inl ⟨rfl, rfl⟩
    · exact Or.inr ⟨rfl, fun answer hanswer => absurd hanswer not_mem_nil⟩

end

/-! ### Coherence -/

theorem requestOk_iff : history.requestOk store context request = true ↔ request.limit ≠ some 0 ∧
      (∀ row ∈ store.fullScan context.deleteFiles context.files, request.plain row = true) ∧
      request.sortable (store.fullScan context.deleteFiles context.files) = true ∧
      (history.isFilled context = true → ∀ file ∈ context.files, file ∉ history.filled →
        ∀ row ∈ store.fullScan context.deleteFiles [file], request.holds sqlCompare row = false) := by
  simp [requestOk, and_assoc, or_iff_not_imp_left]

theorem not_holds_of_notMem_source (hvalid : StatsValid store context) (hrequest : request ∈ call.requests)
    (hok : history.requestOk store context request = true) {file : FileDescriptor} (hfile : file ∈ context.files)
    (hsource : file ∉ history.source context call) {row : ServingRow}
    (hrow : row ∈ store.fullScan context.deleteFiles [file]) : request.holds sqlCompare row = false := by
  obtain ⟨-, hplain, -, hfilled⟩ := requestOk_iff.mp hok
  unfold source at hsource
  split at hsource
  · rename_i h
    exact hfilled h file hfile hsource row hrow
  cases call with
  | serve served =>
    cases mem_singleton.mp hrequest
    have hpruned : fileSurvives context.fileStats request file = false := by
      rw [SnapshotLookupCall.files, selectedFiles_pruneCandidateFiles, mem_filter] at hsource
      exact Bool.eq_false_iff.mpr fun h => hsource ⟨hfile, h⟩
    rw [← Bool.not_eq_true]
    intro hholds
    rw [← ReadPlan.holds_compareScalarValues (hplain row (store.mem_fullScan.mpr ⟨file, hfile, hrow⟩))] at hholds
    rw [fileSurvives_of_holds (hvalid file hfile row hrow) hholds] at hpruned
    cases hpruned
  | pointLookup _ | batch _ | warm => exact absurd hfile hsource

section

variable (hinv : CacheInv store hash context history)

include hinv

theorem getOrBuildSnapshotLookupCache_spec :
    let cache := buildInMemorySnapshotLookupCache hash
      (store.fullScan context.deleteFiles (history.source context call))
    (getOrBuildSnapshotLookupCache store hash context history.caches (call.files context)).1 = cache ∧
      (getOrBuildSnapshotLookupCache store hash context history.caches (call.files context)).2.lookup
        (checkpointCacheKey context.checkpoint) = some cache := by
  unfold getOrBuildSnapshotLookupCache source isFilled
  dsimp only
  cases hlookup : history.caches.lookup (checkpointCacheKey context.checkpoint) with
  | some cache =>
    obtain ⟨hcache, -⟩ := hinv cache hlookup
    exact ⟨hcache, hlookup.trans (congrArg some hcache)⟩
  | none => exact ⟨rfl, AList.lookup_insert _⟩

theorem source_eq_filter : ∃ kept, history.source context call = context.files.filter kept := by
  unfold source
  split
  · rename_i hfilled
    obtain ⟨cache, hcache⟩ := Option.isSome_iff_exists.mp hfilled
    exact (hinv cache hcache).2
  · cases call with
    | serve request =>
      exact ⟨_, selectedFiles_pruneCandidateFiles context.files context.fileStats request⟩
    | pointLookup _ | batch _ | warm => exact ⟨fun _ => true, (filter_true _).symm⟩

theorem isScanResult_of_answeredBy (hvalid : StatsValid store context)
    (hok : history.stepOk store context call) {answer : ReadPlan × List ServingRow}
    (hanswer : AnsweredBy hash text call (buildInMemorySnapshotLookupCache hash
      (store.fullScan context.deleteFiles (history.source context call))) answer) :
    IsScanResult answer.1 answer.1.normalizedLimit (store.fullScan context.deleteFiles context.files)
      answer.2 := by
  obtain ⟨hrequest, plan, hplan, hrows⟩ := hanswer
  have hrequestOk := hok answer.1 hrequest
  obtain ⟨hlimit, hplain, hsort, -⟩ := requestOk_iff.mp hrequestOk
  obtain ⟨kept, hkept⟩ := source_eq_filter hinv
  have hsub : store.fullScan context.deleteFiles (history.source context call) ⊆
      store.fullScan context.deleteFiles context.files :=
    store.fullScan_subset _ (hkept ▸ fun _ => mem_of_mem_filter)
  have hsort' := ReadPlan.sortable_iff.mpr fun sort hmem left hleft right hright =>
    ReadPlan.sortable_iff.mp hsort sort hmem left (hsub hleft) right (hsub hright)
  obtain ⟨selected, hperm, hsorted, hresult⟩ := isScanResult_lookup hash text hplan
    (fun row hrow => hplain row (hsub hrow)) hsort' (plan.cut_of_ne_zero (ReadPlan.normalizedLimit_ne_zero hlimit))
  rw [hrows]
  refine ⟨selected, hperm.trans (.of_eq ?_), hsorted, hresult⟩
  rw [hkept]
  refine filter_fullScan_filter fun file hfile hno row hrow =>
    not_holds_of_notMem_source hvalid hrequest hrequestOk hfile ?_ hrow
  rw [hkept, mem_filter, hno]
  exact fun h => Bool.false_ne_true h.2

theorem cacheInv_step (hstep : history.step store hash text context call = some history') :
    CacheInv store hash context history' := by
  cases hstep
  intro cache hcache
  rcases run_cases store hash text context call history.caches with ⟨-, hcaches⟩ | ⟨hcaches, -⟩
  · dsimp only at hcache ⊢
    rw [hcaches] at hcache
    have hfilled : history.isFilled context = true := Option.isSome_iff_exists.mpr ⟨cache, hcache⟩
    rw [if_pos hfilled]
    exact hinv cache hcache
  · dsimp only at hcache
    rw [hcaches, (getOrBuildSnapshotLookupCache_spec hinv).2] at hcache
    exact ⟨(Option.some.inj hcache).symm, source_eq_filter hinv⟩

/-- **One call.** Where its requests find their files in the cache, the answers are those of scans. -/
theorem coherent_step (hvalid : StatsValid store context)
    (hcoherent : history.Coherent store context) (hok : history.stepOk store context call)
    (hstep : history.step store hash text context call = some history') :
    history'.Coherent store context := by
  cases hstep
  intro answer hanswer
  rcases mem_append.mp hanswer with hold | hnew
  · exact hcoherent answer hold
  rcases run_cases store hash text context call history.caches with ⟨hnone, -⟩ | ⟨-, hanswers⟩
  · rw [hnone] at hnew
    exact absurd hnew not_mem_nil
  · have hby := hanswers answer hnew
    rw [(getOrBuildSnapshotLookupCache_spec hinv).1] at hby
    exact isScanResult_of_answeredBy hinv hvalid hok hby

end

/-- The start of a history: the checkpoint has no cache and nothing has been answered. -/
def start (caches : SnapshotLookupCaches) : LookupHistory := ⟨caches, [], []⟩

/-- **Histories.** Along every sequence of calls whose requests find their files in the cache, every answer
is one that a scan over all files of the checkpoint may give. -/
theorem coherent_of_exec (hvalid : StatsValid store context) {caches : SnapshotLookupCaches}
    (hempty : caches.lookup (checkpointCacheKey context.checkpoint) = none)
    {calls : List SnapshotLookupCall} {history : LookupHistory}
    (hok : Run.Along (step store hash text context) (stepOk store context) (start caches) calls)
    (hrun : Run.exec (step store hash text context) (start caches) calls = some history) :
    history.Coherent store context := by
  have hstart : CacheInv store hash context (start caches) ∧ (start caches).Coherent store context := by
    refine ⟨fun cache hcache => ?_, fun answer hanswer => absurd hanswer not_mem_nil⟩
    cases hempty.symm.trans hcache
  refine (Run.exec_invariant (P := fun history => CacheInv store hash context history ∧
    history.Coherent store context) ?_ hstart hok hrun).2
  intro history call history' hinv hstepOk hstep
  exact ⟨cacheInv_step hinv.1 hstep, coherent_step hinv.1 hvalid hinv.2 hstepOk hstep⟩

/-! ### One view of the files -/

/-- What a scan over some files may answer, where the request compares the rows of the checkpoint exactly. -/
def Views (store : ServingStore) (context : ServingContext) (files : List FileDescriptor)
    (answer : ReadPlan × List ServingRow) : Prop :=
  let rows := store.fullScan context.deleteFiles context.files
  answer.1.limit ≠ some 0 → (∀ row ∈ rows, answer.1.plain row = true) → answer.1.sortable rows = true →
    IsScanResult answer.1 answer.1.normalizedLimit (store.fullScan context.deleteFiles files) answer.2

theorem views_of_answeredBy (hinv : CacheInv store hash context history) {answer : ReadPlan × List ServingRow}
    (hanswer : AnsweredBy hash text call (buildInMemorySnapshotLookupCache hash
      (store.fullScan context.deleteFiles (history.source context call))) answer) :
    Views store context (history.source context call) answer := by
  intro hlimit hplain hsort
  obtain ⟨-, plan, hplan, hrows⟩ := hanswer
  obtain ⟨kept, hkept⟩ : ∃ kept, history.source context call = context.files.filter kept := source_eq_filter hinv
  have hsub : store.fullScan context.deleteFiles (history.source context call) ⊆
      store.fullScan context.deleteFiles context.files :=
    store.fullScan_subset _ (hkept ▸ fun _ => mem_of_mem_filter)
  have hsort' := ReadPlan.sortable_iff.mpr fun sort hmem left hleft right hright =>
    ReadPlan.sortable_iff.mp hsort sort hmem left (hsub hleft) right (hsub hright)
  rw [hrows]
  exact isScanResult_lookup hash text hplan (fun row hrow => hplain row (hsub hrow)) hsort'
    (plan.cut_of_ne_zero (ReadPlan.normalizedLimit_ne_zero hlimit))

/-- What was answered is what the files behind the cache have; they stay the same once there is a cache. -/
def OneView (store : ServingStore) (context : ServingContext) (history : LookupHistory) : Prop :=
  ∀ answer ∈ history.answers, history.isFilled context = true ∧ Views store context history.filled answer

theorem oneView_step (hinv : CacheInv store hash context history) (hview : history.OneView store context)
    (hstep : history.step store hash text context call = some history') : history'.OneView store context := by
  cases hstep
  intro answer hanswer
  have hold : ∀ answer ∈ history.answers, Views store context (history.source context call) answer := by
    intro answer hanswer
    obtain ⟨hfilled, hviews⟩ := hview answer hanswer
    rwa [source, if_pos hfilled]
  rcases run_cases store hash text context call history.caches with ⟨hnone, hcaches⟩ | ⟨hcaches, hanswers⟩
  · simp only [hnone, append_nil, isFilled, hcaches] at hanswer ⊢
    exact ⟨(hview answer hanswer).1, hold answer hanswer⟩
  · refine ⟨?_, (mem_append.mp hanswer).elim (hold answer) fun hnew => ?_⟩
    · simp only [isFilled, hcaches]
      rw [(getOrBuildSnapshotLookupCache_spec hinv).2]
      rfl
    · have hby := hanswers answer hnew
      rw [(getOrBuildSnapshotLookupCache_spec hinv).1] at hby
      exact views_of_answeredBy hinv hby

/-- **All answers are of one view.** Whatever calls come in whatever order, there are files of the
checkpoint such that every answer is one that a scan over those files may give. -/
theorem oneView_of_exec {caches : SnapshotLookupCaches}
    (hempty : caches.lookup (checkpointCacheKey context.checkpoint) = none)
    {calls : List SnapshotLookupCall} {history : LookupHistory}
    (hrun : Run.exec (step store hash text context) (start caches) calls = some history) :
    ∃ kept, ∀ answer ∈ history.answers, Views store context (context.files.filter kept) answer := by
  have hstart : CacheInv store hash context (start caches) := by
    intro cache hcache
    cases hempty.symm.trans hcache
  obtain ⟨hinv, hview⟩ := Run.exec_invariant_all (P := fun history => CacheInv store hash context history ∧
    history.OneView store context) (fun _ _ _ h hstep => ⟨cacheInv_step h.1 hstep, oneView_step h.1 h.2 hstep⟩)
    ⟨hstart, fun _ hanswer => absurd hanswer not_mem_nil⟩ hrun
  cases hlookup : history.caches.lookup (checkpointCacheKey context.checkpoint) with
  | none =>
    refine ⟨fun _ => true, fun answer hanswer => ?_⟩
    have hfilled := (hview answer hanswer).1
    rw [isFilled, hlookup] at hfilled
    cases hfilled
  | some cache =>
    obtain ⟨-, kept, hkept⟩ := hinv cache hlookup
    exact ⟨kept, fun answer hanswer => hkept ▸ (hview answer hanswer).2⟩

end

/-! ### Two files with one row each -/

def idValue (n : Nat) : Value := .number (.posInt n)

def idRequest (n : Nat) : ReadPlan := { filters := [{ field := "id", eq := some (idValue n) }] }

/-- The files `1` and `2`, each with a row whose `id` is its name. -/
def twoFiles : ServingContext :=
  { checkpoint := { tableName := "t", checkpointId := "c", originalCheckpointId := none }
    files := [⟨"1", ⟨[]⟩, 1⟩, ⟨"2", ⟨[]⟩, 1⟩], speedboatFiles := [], deleteFiles := []
    fileStats := ((∅ : Dict String IcebergFileStats).insert "1" (idStats 1)).insert "2" (idStats 2) }
where
  idStats (n : Nat) : IcebergFileStats :=
    { filePath := toString n, recordCount := some 1, partitionValues := [], rowGroups := []
      columns := [⟨1, "id", some 0, some (idValue n), some (idValue n)⟩] }

def twoFilesStore : ServingStore :=
  { rows := fun path => [(∅ : ServingRow).insert "id" (idValue (if path = "1" then 1 else 2))]
    deletedKeys := fun _ => [] }

theorem statsValid_twoFiles : StatsValid twoFilesStore twoFiles := by
  simp only [StatsValid, fileStatsValid_iff]
  decide +kernel

/-- The first request fills the cache from the file `1`; the row of the second is in the file `2`. -/
theorem not_coherent_serve_serve : ∃ history,
    Run.exec (step twoFilesStore (fun _ => 0) (fun _ => "") twoFiles) (start ∅)
      [.serve (idRequest 1), .serve (idRequest 2)] = some history ∧
    StatsValid twoFilesStore twoFiles ∧ ¬ history.Coherent twoFilesStore twoFiles := by
  refine Run.exists_end (p := fun history => ∃ answer ∈ history.answers, answer.2.length ≠
    min answer.1.normalizedLimit ((twoFilesStore.fullScan twoFiles.deleteFiles twoFiles.files).filter
      (answer.1.holds sqlCompare)).length) (by decide +kernel) ?_
  rintro history - ⟨answer, hanswer, hlength⟩
  exact ⟨statsValid_twoFiles, fun hcoherent => hlength (hcoherent answer hanswer).length_eq⟩

/-- Requests that come after the cache was filled from both files are answered as by scans. -/
theorem coherent_of_exec_warm : ∃ history, Run.exec (step twoFilesStore (fun _ => 0) (fun _ => "") twoFiles) (start ∅)
      [.warm, .serve (idRequest 1), .pointLookup (idRequest 2)] = some history ∧
    history.answers.length = 2 ∧ history.Coherent twoFilesStore twoFiles := by
  exact Run.exists_end (p := fun history => history.answers.length = 2) (by decide +kernel)
    fun history hrun hanswers =>
      ⟨hanswers, coherent_of_exec statsValid_twoFiles rfl (by decide +kernel) hrun⟩

/-- The two requests of which the second misses its row: both are answered from the file `1`. -/
theorem oneView_of_exec_serve_serve : ∃ history,
    Run.exec (step twoFilesStore (fun _ => 0) (fun _ => "") twoFiles) (start ∅)
      [.serve (idRequest 1), .serve (idRequest 2)] = some history ∧ history.answers.length = 2 ∧
    ∃ kept, ∀ answer ∈ history.answers, Views twoFilesStore twoFiles (twoFiles.files.filter kept) answer :=
  Run.exists_end (p := fun history => history.answers.length = 2) (by decide +kernel)
    fun _ hrun hanswers => ⟨hanswers, oneView_of_exec rfl hrun⟩

end LookupHistory

end PowdrrEngine

import NestedStyles.Proofs.Walked

/-!
# Runs of operations on the buckets

The buckets are changed by six operations. Each files a tree into one bucket or notes a statement,
and leaves every other bucket as it is (`Buckets.node?_apply`), so after a run a bucket holds what
the operations that address it make of it (`Buckets.node?_run`). Keys and statements stand in the
order of their first operation, each once (`Buckets.keys_run`, `Buckets.statements_run`).
Operations that address different buckets may therefore change places
(`Buckets.run_of_same_filings`).
-/

namespace NestedStyles.Buckets

/-- A kind of bucket: one of the tables, or the modes, whose buckets share one tree. -/
inductive Kind where
  | table (table : Table)
  | modes
deriving DecidableEq

/-- An operation on the buckets. -/
inductive Operation where
  | addStatement (key : String) (names : Option String)
  | addLayer (header : String) (parents : List String) (block : StyleTree)
  | addContainer (header : String) (parents : List String) (block : StyleTree)
  | addMedia (query : String) (parents : List String) (block : StyleTree)
  | addMode (selector : String) (parents : List String) (block : StyleTree)
  | add (target : Target) (parents : List String) (block : StyleTree)

namespace Operation

/-- The buckets after an operation. -/
def apply (buckets : Buckets) : Operation → Buckets
  | .addStatement key names => buckets.addStatement key names
  | .addLayer header parents block => buckets.addLayer header parents block
  | .addContainer header parents block => buckets.addContainer header parents block
  | .addMedia query parents block => buckets.addMedia query parents block
  | .addMode selector parents block => buckets.addMode selector parents block
  | .add target parents block => buckets.add target parents block

/-- The kind and the key of the bucket that an operation addresses. -/
def bucket? : Operation → Option (Kind × String)
  | .addStatement _ _ => none
  | .addLayer header _ _ => some (.table .layers, Text.trimmed header)
  | .addContainer header _ _ => some (.table .containers, Text.trimmed header)
  | .addMedia query _ _ => some (.table .media, query)
  | .addMode selector _ _ => some (.modes, selector)
  | .add (.mode selector) _ _ => some (.modes, selector)
  | .add (.media query) _ _ => some (.table .media, query)

/-- The key of the bucket of a kind that an operation addresses. -/
def key? (kind : Kind) (operation : Operation) : Option String :=
  (operation.bucket?.filter (·.1 = kind)).map Prod.snd

/-- The statement that an operation notes. -/
def statement? : Operation → Option String
  | .addStatement key names => some (statement key names)
  | _ => none

/-- What the bucket that an operation addresses holds after it. -/
def write (old : Option Node) : Operation → Option Node
  | .addStatement _ _ => old
  | .addLayer _ parents block | .addContainer _ parents block | .addMedia _ parents block
  | .add (.media _) parents block =>
    some (.tree ((StyleTree.entriesOf old).merge (StyleTree.nest parents block)))
  | .addMode _ parents block | .add (.mode _) parents block =>
    some (StyleTree.mergeNode old (.tree (descendantTree parents block)))

end Operation

/-- The buckets after a run of operations. -/
def run (operations : List Operation) : Buckets := operations.foldl Operation.apply .empty

/-- What a bucket holds, if anything was filed into it. -/
def node? (buckets : Buckets) : Kind × String → Option Node
  | (.table table, header) => ((buckets.table table).get? header).map .tree
  | (.modes, selector) => buckets.modes.get? selector

/-- The keys of the buckets of a kind. -/
def keys (buckets : Buckets) : Kind → List String
  | .table table => (buckets.table table).keys
  | .modes => buckets.modes.keys

/-! ## One operation -/

section Filed

variable (buckets : Buckets)

/-- A filing changes its own bucket only. -/
theorem node?_file (filing : Filing) (bucket : Kind × String) :
    (buckets.file filing).node? bucket =
      if (.table filing.table, filing.header) = bucket then
        some (.tree ((StyleTree.entriesOf (buckets.node? bucket)).merge filing.tree))
      else buckets.node? bucket := by
  obtain ⟨kind, key⟩ := bucket
  cases kind with
  | modes => rw [node?, node?, (statements_file buckets filing).2, if_neg (by simp)]
  | table table =>
    have hentries (old : Option StyleTree) :
        StyleTree.entriesOf (old.map Node.tree) = old.getD [] := by cases old <;> rfl
    rw [node?, node?, table_file, hentries]
    by_cases htable : filing.table = table
    · rw [if_pos htable, fileUnder, Entries.get?_upsert]
      by_cases hkey : key = filing.header
      · rw [if_pos hkey, if_pos (by rw [htable, hkey]), hkey]
        rfl
      · rw [if_neg hkey, if_neg fun h => hkey (Prod.mk.inj h).2.symm]
    · rw [if_neg htable, if_neg fun h => htable (Kind.table.inj (Prod.mk.inj h).1)]

/-- A filing under the selector of a mode changes the bucket of that selector only. -/
theorem node?_fileMode (filing : ModeFiling) (bucket : Kind × String) :
    (buckets.fileMode filing).node? bucket =
      if (.modes, filing.selector) = bucket then
        some (StyleTree.mergeNode (buckets.node? bucket) (.tree filing.content))
      else buckets.node? bucket := by
  obtain ⟨kind, key⟩ := bucket
  cases kind with
  | table table => rw [node?, node?, table_fileMode, if_neg (by simp)]
  | modes =>
    have hmerge : (buckets.fileMode filing).modes =
        buckets.modes.upsert filing.selector (StyleTree.mergeNode · (.tree filing.content)) := rfl
    rw [node?, node?, hmerge, Entries.get?_upsert]
    by_cases hkey : key = filing.selector
    · rw [if_pos hkey, if_pos (by rw [hkey]), hkey]
    · rw [if_neg hkey, if_neg fun h => hkey (Prod.mk.inj h).2.symm]

theorem node?_note (s : String) (bucket : Kind × String) :
    (buckets.note s).node? bucket = buckets.node? bucket := by
  obtain ⟨_ | _, key⟩ := bucket
  · rw [node?, node?, table_note]
  · rw [node?, node?, modes_note]

/-- The keys of a kind after a filing: a new key stands at the end. -/
theorem keys_file (filing : Filing) (kind : Kind) :
    (buckets.file filing).keys kind =
      if .table filing.table = kind ∧ filing.header ∉ buckets.keys kind then
        buckets.keys kind ++ [filing.header]
      else buckets.keys kind := by
  cases kind with
  | modes => rw [keys, keys, (statements_file buckets filing).2, if_neg (by simp)]
  | table table =>
    rw [keys, keys, table_file]
    by_cases htable : filing.table = table
    · rw [if_pos htable, fileUnder, Entries.keys_upsert]
      simp [htable]
    · simp [htable]

theorem keys_fileMode (filing : ModeFiling) (kind : Kind) :
    (buckets.fileMode filing).keys kind =
      if .modes = kind ∧ filing.selector ∉ buckets.keys kind then
        buckets.keys kind ++ [filing.selector]
      else buckets.keys kind := by
  cases kind with
  | table table => rw [keys, keys, table_fileMode, if_neg (by simp)]
  | modes =>
    have hmerge : (buckets.fileMode filing).modes =
        buckets.modes.upsert filing.selector (StyleTree.mergeNode · (.tree filing.content)) := rfl
    rw [keys, keys, hmerge, Entries.keys_upsert]
    simp

theorem keys_note (s : String) (kind : Kind) : (buckets.note s).keys kind = buckets.keys kind := by
  cases kind with
  | table table => rw [keys, keys, table_note]
  | modes => rw [keys, keys, modes_note]

end Filed

namespace Operation

/-- What an operation does: it notes a statement, or it files a block into the bucket that it
addresses, of a table or of the modes. -/
theorem apply_cases (operation : Operation) :
    (∃ s, operation.statement? = some s ∧ operation.bucket? = none ∧
        (∀ buckets, operation.apply buckets = buckets.note s) ∧
        ∀ old, operation.write old = old) ∨
      (∃ filing : Filing, operation.statement? = none ∧
        operation.bucket? = some (.table filing.table, filing.header) ∧
        (∀ buckets, operation.apply buckets = buckets.file filing) ∧
        ∀ old, operation.write old =
          some (.tree ((StyleTree.entriesOf old).merge filing.tree))) ∨
      ∃ filing : ModeFiling, operation.statement? = none ∧
        operation.bucket? = some (.modes, filing.selector) ∧
        (∀ buckets, operation.apply buckets = buckets.fileMode filing) ∧
        ∀ old, operation.write old =
          some (StyleTree.mergeNode old (.tree filing.content)) := by
  cases operation with
  | addStatement key names => exact Or.inl ⟨_, rfl, rfl, fun _ => rfl, fun _ => rfl⟩
  | addLayer header parents block =>
    exact Or.inr (Or.inl ⟨⟨.layers, Text.trimmed header, parents, block⟩, rfl, rfl, fun _ => rfl,
      fun _ => rfl⟩)
  | addContainer header parents block =>
    exact Or.inr (Or.inl ⟨⟨.containers, Text.trimmed header, parents, block⟩, rfl, rfl,
      fun _ => rfl, fun _ => rfl⟩)
  | addMedia query parents block =>
    exact Or.inr (Or.inl ⟨⟨.media, query, parents, block⟩, rfl, rfl, fun _ => rfl, fun _ => rfl⟩)
  | addMode selector parents block =>
    exact Or.inr (Or.inr ⟨⟨selector, parents, block⟩, rfl, rfl, fun _ => rfl, fun _ => rfl⟩)
  | add target parents block =>
    cases target with
    | mode selector =>
      exact Or.inr (Or.inr ⟨⟨selector, parents, block⟩, rfl, rfl, fun _ => rfl, fun _ => rfl⟩)
    | media query =>
      exact Or.inr (Or.inl ⟨⟨.media, query, parents, block⟩, rfl, rfl, fun _ => rfl,
        fun _ => rfl⟩)

variable (operation : Operation) (buckets : Buckets)

/-- An operation writes to the bucket that it addresses and leaves every other as it is. -/
theorem node?_apply (bucket : Kind × String) :
    (operation.apply buckets).node? bucket =
      if operation.bucket? = some bucket then operation.write (buckets.node? bucket)
      else buckets.node? bucket := by
  rcases operation.apply_cases with ⟨s, -, hbucket, happly, -⟩ |
    ⟨filing, -, hbucket, happly, hwrite⟩ | ⟨filing, -, hbucket, happly, hwrite⟩
  · rw [happly, node?_note, hbucket, if_neg (by simp)]
  · simp only [happly, node?_file, hbucket, hwrite, Option.some.injEq]
  · simp only [happly, node?_fileMode, hbucket, hwrite, Option.some.injEq]

/-- An operation adds the key of its bucket at the end, unless it is there. -/
theorem keys_apply (kind : Kind) :
    (operation.apply buckets).keys kind = match operation.key? kind with
      | some key => if key ∈ buckets.keys kind then buckets.keys kind
          else buckets.keys kind ++ [key]
      | none => buckets.keys kind := by
  have hkey (own : Kind) (key : String) (hbucket : operation.bucket? = some (own, key)) :
      operation.key? kind = if own = kind then some key else none := by
    rw [key?, hbucket, Option.filter_some]
    by_cases h : own = kind
    · simp [h]
    · simp [h]
  rcases operation.apply_cases with ⟨s, -, hbucket, happly, -⟩ | ⟨filing, -, hbucket, happly, -⟩ |
    ⟨filing, -, hbucket, happly, -⟩
  · rw [happly, keys_note, key?, hbucket]
    rfl
  · rw [happly, keys_file, hkey _ _ hbucket]
    by_cases h : Kind.table filing.table = kind
    · by_cases hmem : filing.header ∈ buckets.keys kind <;> simp [h, hmem]
    · simp [h]
  · rw [happly, keys_fileMode, hkey _ _ hbucket]
    by_cases h : Kind.modes = kind
    · by_cases hmem : filing.selector ∈ buckets.keys kind <;> simp [h, hmem]
    · simp [h]

/-- An operation adds its statement at the end, unless it is there. -/
theorem statements_apply :
    (operation.apply buckets).statements = match operation.statement? with
      | some s => if s ∈ buckets.statements then buckets.statements
          else buckets.statements ++ [s]
      | none => buckets.statements := by
  rcases operation.apply_cases with ⟨s, hs, -, happly, -⟩ | ⟨filing, hs, -, happly, -⟩ |
    ⟨filing, hs, -, happly, -⟩
  · rw [happly, hs, note]
    dsimp only
    split <;> rfl
  · rw [happly, hs, (statements_file buckets filing).1]
  · rw [happly, hs, statements_fileMode]

end Operation

/-! ## Runs -/

section Run

variable (operations : List Operation)

/-- What the operations of a run make of a view of the buckets, they make of it one by one. -/
theorem view_run {α : Type} (view : Buckets → α) {change : α → Operation → α}
    (hstep : ∀ buckets operation,
      view (operation.apply buckets) = change (view buckets) operation) :
    view (run operations) = operations.foldl change (view .empty) :=
  (List.foldl_hom view fun buckets operation => (hstep buckets operation).symm).symm

/-- A bucket holds what the operations that address it write to it. -/
theorem node?_run (bucket : Kind × String) :
    (run operations).node? bucket =
      (operations.filter (·.bucket? = some bucket)).foldl Operation.write none := by
  have hempty : Buckets.empty.node? bucket = none := by
    obtain ⟨table | _, key⟩ := bucket
    · cases table <;> rfl
    · rfl
  rw [List.foldl_filter, ← hempty]
  refine view_run operations (fun buckets => buckets.node? bucket) fun buckets operation => ?_
  simp only [decide_eq_true_eq]
  exact operation.node?_apply buckets bucket

/-- Names that are added one after another, each unless it is there, stand in the order in which
they were first added. -/
theorem names_run (names : Buckets → List String) (name? : Operation → Option String)
    (hempty : names .empty = []) (hstep : ∀ operation buckets, names (operation.apply buckets) =
      match name? operation with
      | some name => if name ∈ names buckets then names buckets else names buckets ++ [name]
      | none => names buckets) :
    names (run operations) = (operations.filterMap name?).eraseDups := by
  have hview : names (run operations) = operations.foldl (fun list operation =>
      match name? operation with
      | some name => if name ∈ list then list else list ++ [name]
      | none => list) (names .empty) :=
    view_run operations names fun buckets operation => hstep operation buckets
  have hnote := Collected.foldl_note (operations.filterMap name?) []
  rw [List.foldl_filterMap, List.filter_eq_self.mpr (by simp), List.nil_append] at hnote
  rw [hview, hempty]
  refine Eq.trans (congrArg (List.foldl · [] operations) ?_) hnote
  funext list operation
  cases name? operation <;> rfl

/-- The keys of a kind stand in the order of the first operations that address their buckets. -/
theorem keys_run (kind : Kind) :
    (run operations).keys kind = (operations.filterMap (Operation.key? kind)).eraseDups := by
  refine names_run operations (fun buckets => buckets.keys kind) _ ?_ fun operation buckets =>
    operation.keys_apply buckets kind
  rcases kind with ⟨_ | _ | _⟩ | _ <;> rfl

/-- The statements stand in the order in which they were first noted. -/
theorem statements_run :
    (run operations).statements = (operations.filterMap Operation.statement?).eraseDups :=
  names_run operations Buckets.statements _ rfl fun operation buckets =>
    operation.statements_apply buckets

end Run

/-- Buckets do not interfere. Of two runs in which the same operations address each bucket, in the
same order, both leave the same in every bucket, and the same statements if they note the same.
After any run each statement and each key stands once, in the order of the first operation. -/
theorem run_of_same_filings {first second : List Operation}
    (h : ∀ bucket, first.filter (·.bucket? = some bucket) =
      second.filter (·.bucket? = some bucket)) :
    (∀ bucket, (run first).node? bucket = (run second).node? bucket) ∧
      ((∀ operation : Operation, operation.statement?.isSome = true →
          (operation ∈ first ↔ operation ∈ second)) →
        ∀ s, s ∈ (run first).statements ↔ s ∈ (run second).statements) ∧
      ∀ operations, (run operations).statements.Nodup ∧
        (run operations).statements = (operations.filterMap Operation.statement?).eraseDups ∧
        ∀ kind, ((run operations).keys kind).Nodup ∧
          (run operations).keys kind =
            (operations.filterMap (Operation.key? kind)).eraseDups := by
  refine ⟨fun bucket => by rw [node?_run, node?_run, h], fun hsame s => ?_, fun operations => ?_⟩
  · have hmem (a b : List Operation)
        (hab : ∀ operation : Operation, operation.statement?.isSome = true →
          operation ∈ a → operation ∈ b) (hs : s ∈ (run a).statements) :
        s ∈ (run b).statements := by
      rw [statements_run, List.mem_eraseDups, List.mem_filterMap] at hs ⊢
      obtain ⟨operation, ha, hnoted⟩ := hs
      exact ⟨operation, hab operation (by rw [hnoted]; rfl) ha, hnoted⟩
    exact ⟨hmem first second fun operation hnotes => (hsame operation hnotes).mp,
      hmem second first fun operation hnotes => (hsame operation hnotes).mpr⟩
  · refine ⟨?_, statements_run operations, fun kind => ⟨?_, keys_run operations kind⟩⟩
    · exact statements_run operations ▸ Entries.nodup_eraseDups _
    · exact keys_run operations kind ▸ Entries.nodup_eraseDups _

/-- A block of a layer, a block of a mode and a statement in two orders. -/
theorem run_of_exchanged :
    let layer := Operation.addLayer " @layer a " ["p"] [("color", .leaf (.text "red"))]
    let mode := Operation.add (.mode ".dark") ["p"] [("color", .leaf (.text "black"))]
    let statement := Operation.addStatement "@layer" (some "a, b")
    let first := [layer, mode, statement]
    let second := [statement, mode, layer]
    (∀ bucket, first.filter (·.bucket? = some bucket) = second.filter (·.bucket? = some bucket)) ∧
      (∀ bucket, (run first).node? bucket = (run second).node? bucket) ∧
      ∀ s, s ∈ (run first).statements ↔ s ∈ (run second).statements := by
  intro layer mode statement first second
  have hfiled : ∀ bucket, first.filter (·.bucket? = some bucket) =
      second.filter (·.bucket? = some bucket) := fun bucket => by
    have hne : layer.bucket? ≠ mode.bucket? := by decide
    have hnone : statement.bucket? = none := rfl
    by_cases hlayer : layer.bucket? = some bucket
    · have hmode : mode.bucket? ≠ some bucket := fun h => hne (hlayer.trans h.symm)
      simp [first, second, hlayer, hmode, hnone]
    · simp [first, second, List.filter_cons, hlayer, hnone]
  have hsame := run_of_same_filings hfiled
  have hmem (operation : Operation) : operation ∈ first.reverse ↔ operation ∈ first :=
    List.mem_reverse
  exact ⟨hfiled, hsame.1, hsame.2.1 fun operation _ => (hmem operation).symm⟩

end NestedStyles.Buckets

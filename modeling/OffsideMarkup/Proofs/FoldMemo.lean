/-
OffsideMarkup.Proofs.FoldMemo — folds kept node by node.

A document keeps its folds once they are known (`Analysis.folds`). What stands behind that is more
delicate: a walk over the nodes of the tree that may be stopped, and a memo that it fills on its
way, with the folds under the root and under each element. The memo goes by the index that a node is
stored under, and after an edit other nodes are stored under the same indices.

So the walk is given here as it goes on (`Folder`), a step being one that may fail and leave
something in the memo all the same. Two things are to be shown of it. What is in the memo belongs to
the tree of now: this is the invariant (`FoldMemo.Agrees`), and every step keeps it, since nodes of
one tree have indices of their own (`Line.nodup_stored`). And a walk that is stopped has not put anything
in, because whether to stop is asked in front of it.

* `Line.getElem?_of_mem_stored` — a line is stored under the index that the walk finds it by.
* `Folder.yields_line`, `Folder.runOn_file` — a walk that is not stopped gives the folds of the
  tree, whatever it finds in the memo.
* `Folder.runOn_node_cancelled` — a walk that is stopped gives what the memo has, or fails, and
  leaves the memo alone.
* `fold_memo` — any number of edits and requests for folds, and what an `Analysis` makes of them.
-/
import Mathlib.Data.List.Induction
import Mathlib.Data.List.Nodup
import OffsideMarkup.Editor.Analysis
import OffsideMarkup.Proofs.NodeStore
import OffsideMarkup.Table

namespace OffsideMarkup

/-! ## 1. Where lines are stored -/

namespace Line

mutual
/-- A line and the lines nested in it, each with the index of its node, if the nodes of the line are
stored from an index on. -/
def stored (base : Nat) : Line → List (Nat × Line)
  | .simple f b => [(Node.rootAt base (Line.simple f b).node, .simple f b)]
  | .element f t ls =>
    storedAll (base + Rose.sizeAll (f.around [t.node])) ls
      ++ [(Node.rootAt base (Line.element f t ls).node, .element f t ls)]

/-- The same for lines one after the other. -/
def storedAll (base : Nat) : List Line → List (Nat × Line)
  | [] => []
  | l :: ls => l.stored base ++ storedAll (base + l.node.size) ls
end

theorem mem_stored_self (base : Nat) (l : Line) :
    (Node.rootAt base l.node, l) ∈ l.stored base := by
  cases l <;> simp [stored]

theorem rootAt_lt (base : Nat) (t : Node) : Node.rootAt base t < base + t.size := by
  have := Rose.sizeAll_children t
  rw [Node.rootAt]
  omega

/-- In front of the root of an element stand the nodes of its own line and then the nested ones. -/
theorem rootAt_element (base : Nat) (f : Frame) (t : Tag) (ls : List Line) :
    Node.rootAt base (Line.element f t ls).node
      = base + Rose.sizeAll (f.around [t.node]) + Rose.sizeAll (Line.nodesOf ls) := by
  have layout : (Line.element f t ls).node.children = f.around [t.node] ++ Line.nodesOf ls := rfl
  rw [Node.rootAt, layout, Rose.sizeAll_append, Nat.add_assoc]

mutual
/-- Lines are stored in the stretch of their nodes. -/
theorem bounds_stored (base : Nat) (l : Line) :
    ∀ p ∈ l.stored base, base ≤ p.1 ∧ p.1 < base + l.node.size := by
  have root := rootAt_lt base l.node
  cases l with
  | simple f b =>
    intro p hp
    obtain rfl := List.mem_singleton.mp hp
    exact ⟨Nat.le_add_right .., root⟩
  | element f t ls =>
    intro p hp
    rw [stored, List.mem_append, List.mem_singleton] at hp
    have place := rootAt_element base f t ls
    rcases hp with nested | rfl
    · have := bounds_storedAll (base + Rose.sizeAll (f.around [t.node])) ls p nested
      omega
    · exact ⟨Nat.le_add_right .., root⟩

theorem bounds_storedAll (base : Nat) (ls : List Line) :
    ∀ p ∈ storedAll base ls, base ≤ p.1 ∧ p.1 < base + Rose.sizeAll (Line.nodesOf ls) := by
  cases ls with
  | nil => exact fun p hp => absurd hp (by simp [storedAll])
  | cons l ls =>
    intro p hp
    rw [storedAll, List.mem_append] at hp
    rw [Line.nodesOf, Rose.sizeAll]
    rcases hp with first | later
    · have := bounds_stored base l p first
      omega
    · have := bounds_storedAll (base + l.node.size) ls p later
      omega
end

mutual
/-- No two lines are stored under one index. -/
theorem nodup_stored (base : Nat) (l : Line) : ((l.stored base).map Prod.fst).Nodup := by
  cases l with
  | simple f b => exact List.nodup_singleton _
  | element f t ls =>
    rw [stored, List.map_append, List.nodup_append]
    refine ⟨nodup_storedAll _ ls, List.nodup_singleton _, ?_⟩
    intro i hi j hj
    obtain ⟨p, hp, rfl⟩ := List.mem_map.mp hi
    obtain rfl := List.mem_singleton.mp hj
    have := bounds_storedAll _ ls p hp
    have := rootAt_element base f t ls
    dsimp only
    omega

theorem nodup_storedAll (base : Nat) (ls : List Line) :
    ((storedAll base ls).map Prod.fst).Nodup := by
  cases ls with
  | nil => exact List.nodup_nil
  | cons l ls =>
    rw [storedAll, List.map_append, List.nodup_append]
    refine ⟨nodup_stored base l, nodup_storedAll _ ls, ?_⟩
    intro i hi j hj
    obtain ⟨p, hp, rfl⟩ := List.mem_map.mp hi
    obtain ⟨q, hq, rfl⟩ := List.mem_map.mp hj
    have := bounds_stored base l p hp
    have := bounds_storedAll _ ls q hq
    omega
end

mutual
/-- A line is stored at its index. -/
theorem getElem?_of_mem_stored (front tail : List Entry) (parent : Option Nat) (l : Line) :
    ∀ p ∈ l.stored front.length, ∃ children owner,
      (front ++ l.node.entries front.length parent ++ tail)[p.1]?
        = some (p.2.node.label.entry children owner) := by
  have root : ∃ children owner,
      (front ++ l.node.entries front.length parent ++ tail)[Node.rootAt front.length l.node]?
        = some (l.node.label.entry children owner) := by
    generalize l.node = t
    obtain ⟨label, ts⟩ := t
    exact ⟨_, _, Node.getElem?_rootAt front tail parent label ts⟩
  cases l with
  | simple f b =>
    intro p hp
    obtain rfl := List.mem_singleton.mp hp
    exact root
  | element f t ls =>
    intro p hp
    rw [stored, List.mem_append, List.mem_singleton] at hp
    rcases hp with nested | rfl
    · let owner := some (front.length + Rose.sizeAll (f.around [t.node] ++ Line.nodesOf ls))
      have behind : (front ++ Node.entriesAll front.length owner (f.around [t.node])).length
          = front.length + Rose.sizeAll (f.around [t.node]) := by
        rw [List.length_append, Node.length_entriesAll]
      have := getElem?_of_mem_storedAll
        (front ++ Node.entriesAll front.length owner (f.around [t.node]))
        ([(Line.element f t ls).node.label.entry
          (Node.roots front.length (f.around [t.node] ++ Line.nodesOf ls)) parent] ++ tail)
        owner ls p (behind ▸ nested)
      have layout : (Line.element f t ls).node.entries front.length parent
          = Node.entriesAll front.length owner (f.around [t.node] ++ Line.nodesOf ls)
            ++ [(Line.element f t ls).node.label.entry
              (Node.roots front.length (f.around [t.node] ++ Line.nodesOf ls)) parent] := rfl
      rw [behind] at this
      rw [layout, Node.entriesAll_append]
      simpa only [List.append_assoc] using this
    · exact root

theorem getElem?_of_mem_storedAll (front tail : List Entry) (parent : Option Nat)
    (ls : List Line) :
    ∀ p ∈ storedAll front.length ls, ∃ children owner,
      (front ++ Node.entriesAll front.length parent (Line.nodesOf ls) ++ tail)[p.1]?
        = some (p.2.node.label.entry children owner) := by
  cases ls with
  | nil => exact fun p hp => absurd hp (by simp [storedAll])
  | cons l ls =>
    intro p hp
    rw [storedAll, List.mem_append] at hp
    rw [Line.nodesOf, Node.entriesAll]
    rcases hp with first | later
    · have := getElem?_of_mem_stored front
        (Node.entriesAll (front.length + l.node.size) parent (Line.nodesOf ls) ++ tail) parent l p
        first
      simpa only [List.append_assoc] using this
    · have behind : (front ++ l.node.entries front.length parent).length
          = front.length + l.node.size := by
        rw [List.length_append, Node.length_entries]
      have := getElem?_of_mem_storedAll (front ++ l.node.entries front.length parent) tail parent ls
        p (behind ▸ later)
      rw [behind] at this
      simpa only [List.append_assoc] using this
end

end Line

/-- The lines of a file, with the indices of their nodes. -/
def SourceFile.stored (f : SourceFile) : List (Nat × Line) := Line.storedAll 0 f.lines

/-- The index of the root of a file. -/
def SourceFile.rootIndex (f : SourceFile) : Nat := Node.rootAt 0 f.root

namespace SourceFile

variable {f : SourceFile}

theorem lt_rootIndex {id : Nat} {l : Line} (h : (id, l) ∈ f.stored) : id < f.rootIndex := by
  have place := (Line.bounds_storedAll 0 f.lines _ h).2
  have root : f.rootIndex = Rose.sizeAll (Line.nodesOf f.lines ++ [f.endOfFile.node .part]) := by
    rw [rootIndex, root, Node.compose, Node.rootAt, Rose.children, Nat.zero_add]
  rw [Rose.sizeAll_append] at root
  omega

theorem stored_unique {id : Nat} {l m : Line} (hl : (id, l) ∈ f.stored) (hm : (id, m) ∈ f.stored) :
    l = m :=
  congrArg Prod.snd (List.inj_on_of_nodup_map (Line.nodup_storedAll 0 f.lines) hl hm rfl)

end SourceFile

/-! ## 2. The walk -/

/-- Folds that are known, by the index of the node that they are under. -/
abbrev FoldMemo := Table Nat (List Fold)

/-- A step of the walk. If it fails, the memo it leaves is still there. -/
abbrev Folder := ExceptT Fault (StateM FoldMemo)

namespace Folder

/-- The folds under a node: those that are known, or else what the work gives, unless nobody wants
it. -/
def node (cancelled : Bool) (id : Nat) (work : Folder (List Fold)) : Folder (List Fold) := do
  match (← get).get? id with
  | some folds => return folds
  | none => if cancelled then throw .requestCancelled else work

/-- Puts what the work gives into the memo. -/
def keeping (id : Nat) (work : Folder (List Fold)) : Folder (List Fold) := do
  let folds ← work
  modify (·.insert id folds)
  return folds

mutual
/-- The folds of a line whose nodes are stored from an index on. Those of a line that nests nothing
are none, which is not worth keeping. -/
def line (cancelled : Bool) (base : Nat) : Line → Folder (List Fold)
  | .simple f b => node cancelled (Node.rootAt base (Line.simple f b).node) (pure [])
  | .element f t ls =>
    node cancelled (Node.rootAt base (Line.element f t ls).node)
      (keeping (Node.rootAt base (Line.element f t ls).node) do
        let own := if ls.isEmpty then []
          else [⟨f.start.line, (Line.lastFrameOf f ls).start.line, .element⟩]
        let nested ← lines cancelled (base + Rose.sizeAll (f.around [t.node])) [] none ls
        return own ++ nested)

/-- The folds of lines one after the other, behind those found so far and with the run at hand. -/
def lines (cancelled : Bool) (base : Nat) (found : List Fold) (run : Option Run) :
    List Line → Folder (List Fold)
  | [] => return found ++ run.elim [] Run.folds
  | l :: ls => do
    let own ← line cancelled base l
    lines cancelled (base + l.node.size) (found ++ own ++ Run.closed run l) (Run.next? run l) ls
end

/-- The folds of a file. -/
def file (cancelled : Bool) (f : SourceFile) : Folder (List Fold) :=
  node cancelled f.rootIndex (keeping f.rootIndex (lines cancelled 0 [] none f.lines))

end Folder

/-! ## 3. The memo belongs to the tree -/

/-- The folds under the nodes of a file that they are kept for: the root, and the elements. -/
inductive SourceFile.HasFolds (f : SourceFile) : Nat → List Fold → Prop
  | root : HasFolds f f.rootIndex f.folds
  | element {id : Nat} {frame : Frame} {tag : Tag} {ls : List Line}
      (h : (id, .element frame tag ls) ∈ f.stored) :
      HasFolds f id (Line.element frame tag ls).folds

namespace SourceFile

variable {f : SourceFile} {id : Nat} {folds : List Fold}

/-- What is kept under the index of a line are the folds of that line. -/
theorem HasFolds.of_stored (h : f.HasFolds id folds) {l : Line} (hl : (id, l) ∈ f.stored) :
    folds = l.folds := by
  cases h with
  | root => exact absurd (lt_rootIndex hl) (Nat.lt_irrefl _)
  | element h => rw [stored_unique hl h]

theorem HasFolds.of_root (h : f.HasFolds f.rootIndex folds) : folds = f.folds := by
  cases h with
  | root => rfl
  | element h => exact absurd (lt_rootIndex h) (Nat.lt_irrefl _)

/-- Folds are kept for nodes that are stored, a file or an element each. -/
theorem HasFolds.exists_entry (h : f.HasFolds id folds) :
    ∃ e, (f.root.entries 0 none)[id]? = some e ∧ (e.kind = .file ∨ e.kind = .element) := by
  cases h with
  | root =>
    have here := Node.getElem?_rootAt [] [] none f.root.label f.root.children
    rw [List.nil_append, List.append_nil] at here
    exact ⟨_, here, .inl rfl⟩
  | element h =>
    obtain ⟨owner, tail, layout⟩ : ∃ owner tail,
        f.root.entries 0 none = Node.entriesAll 0 owner (Line.nodesOf f.lines) ++ tail := by
      rw [SourceFile.root, Node.compose, Node.entries, Node.entriesAll_append, List.append_assoc]
      exact ⟨_, _, rfl⟩
    obtain ⟨children, above, here⟩ := Line.getElem?_of_mem_storedAll [] tail owner f.lines _ h
    rw [List.nil_append] at here
    exact ⟨_, layout ▸ here, .inr rfl⟩

end SourceFile

/-- All that is in a memo is from this file. -/
def FoldMemo.Agrees (memo : FoldMemo) (f : SourceFile) : Prop :=
  ∀ id folds, memo.get? id = some folds → f.HasFolds id folds

namespace FoldMemo

theorem agrees_empty (f : SourceFile) : FoldMemo.Agrees .empty f :=
  fun id _ found => absurd found (by simp [Table.get?_empty])

theorem Agrees.insert {memo : FoldMemo} {f : SourceFile} (h : memo.Agrees f) {id : Nat}
    {folds : List Fold} (here : f.HasFolds id folds) :
    FoldMemo.Agrees (Table.insert memo id folds) f := by
  intro other known found
  by_cases same : other = id
  · subst same
    rw [Table.get?_insert_self] at found
    obtain rfl := Option.some.inj found
    exact here
  · rw [Table.get?_insert_of_ne memo folds same] at found
    exact h other known found

end FoldMemo

namespace Folder

variable {α β : Type} {f : SourceFile}

/-- What a step gives from a memo, and the memo it leaves. -/
def runOn (step : Folder α) (memo : FoldMemo) : Except Fault α × FoldMemo := step.run.run memo

/-- A step gives a value, whatever memo of the file it starts from, and leaves one. -/
def Yields (f : SourceFile) (step : Folder α) (a : α) : Prop :=
  ∀ memo : FoldMemo, memo.Agrees f → ∃ left, step.runOn memo = (.ok a, left) ∧ left.Agrees f

theorem runOn_bind (step : Folder α) (next : α → Folder β) (memo : FoldMemo) :
    (step >>= next).runOn memo
      = match step.runOn memo with
        | (.ok a, left) => (next a).runOn left
        | (.error fault, left) => (.error fault, left) := by
  show (ExceptT.run (step >>= next)).run memo = _
  rw [ExceptT.run_bind, StateT.run_bind, runOn]
  generalize step.run.run memo = r
  obtain ⟨result, left⟩ := r
  cases result <;> rfl

/-- Known folds are looked up; else, to go on or not is decided in front of the work. -/
theorem runOn_node (cancelled : Bool) (id : Nat) (work : Folder (List Fold)) (memo : FoldMemo) :
    (node cancelled id work).runOn memo
      = match memo.get? id with
        | some folds => (.ok folds, memo)
        | none => if cancelled then (.error .requestCancelled, memo) else work.runOn memo := by
  have looked : (node cancelled id work).runOn memo
      = (match memo.get? id with
          | some folds => pure folds
          | none => if cancelled then throw .requestCancelled else work : Folder _).runOn memo :=
    rfl
  rw [looked]
  cases memo.get? id with
  | some folds => rfl
  | none => cases cancelled <;> rfl

/-- A walk that is stopped leaves the memo alone. -/
theorem runOn_node_cancelled (id : Nat) (work : Folder (List Fold)) (memo : FoldMemo) :
    (node true id work).runOn memo
      = ((memo.get? id).elim (.error .requestCancelled) .ok, memo) := by
  rw [runOn_node]
  cases memo.get? id <;> rfl

theorem yields_pure (a : α) : Yields f (pure a) a := fun memo agrees => ⟨memo, rfl, agrees⟩

theorem Yields.bind {step : Folder α} {next : α → Folder β} {a : α} {b : β} (h : Yields f step a)
    (h' : Yields f (next a) b) : Yields f (step >>= next) b := by
  intro memo agrees
  obtain ⟨between, first, agrees⟩ := h memo agrees
  obtain ⟨left, second, agrees⟩ := h' between agrees
  refine ⟨left, ?_, agrees⟩
  rw [runOn_bind, first]
  exact second

/-- What is known is as good as what is worked out. -/
theorem yields_node {id : Nat} {work : Folder (List Fold)} {folds : List Fold}
    (known : ∀ other, f.HasFolds id other → other = folds) (h : Yields f work folds) :
    Yields f (node false id work) folds := by
  intro memo agrees
  rw [runOn_node]
  cases found : memo.get? id with
  | some other =>
    rw [known other (agrees id other found)]
    exact ⟨memo, rfl, agrees⟩
  | none => exact h memo agrees

theorem runOn_keeping {id : Nat} {work : Folder (List Fold)} {memo left : FoldMemo}
    {folds : List Fold} (h : work.runOn memo = (.ok folds, left)) :
    (keeping id work).runOn memo = (.ok folds, left.insert id folds) := by
  rw [keeping, runOn_bind, h]
  rfl

theorem yields_keeping {id : Nat} {work : Folder (List Fold)} {folds : List Fold}
    (here : f.HasFolds id folds) (h : Yields f work folds) : Yields f (keeping id work) folds := by
  intro memo agrees
  obtain ⟨left, worked, agrees⟩ := h memo agrees
  exact ⟨_, runOn_keeping worked, agrees.insert here⟩

mutual
theorem yields_line (base : Nat) (l : Line) (h : l.stored base ⊆ f.stored) :
    Yields f (line false base l) l.folds := by
  have here := h (Line.mem_stored_self base l)
  cases l with
  | simple frame b =>
    rw [line]
    exact yields_node (fun _ known => known.of_stored here) (yields_pure _)
  | element frame t ls =>
    rw [line]
    refine yields_node (fun _ known => known.of_stored here) (yields_keeping (.element here) ?_)
    have nested := yields_lines (base + Rose.sizeAll (frame.around [t.node])) [] none ls
      fun p hp => h (List.mem_append_left _ hp)
    exact nested.bind (yields_pure _)

theorem yields_lines (base : Nat) (found : List Fold) (run : Option Run) (ls : List Line)
    (h : Line.storedAll base ls ⊆ f.stored) :
    Yields f (lines false base found run ls) (found ++ Line.blockFolds run ls) := by
  cases ls with
  | nil => exact yields_pure _
  | cons l ls =>
    have first := yields_line base l fun p hp => h (List.mem_append_left _ hp)
    have later := yields_lines (base + l.node.size) (found ++ l.folds ++ Run.closed run l)
      (Run.next? run l) ls fun p hp => h (List.mem_append_right _ hp)
    have value : found ++ l.folds ++ Run.closed run l ++ Line.blockFolds (Run.next? run l) ls
        = found ++ Line.blockFolds run (l :: ls) := by
      rw [Line.blockFolds]
      simp only [List.append_assoc]
    rw [value] at later
    rw [lines]
    exact first.bind later
end

/-- A walk that is not stopped gives the folds of the file, and knows them from then on. -/
theorem runOn_file {memo : FoldMemo} (agrees : memo.Agrees f) :
    ∃ left, (file false f).runOn memo = (.ok f.folds, left) ∧ left.Agrees f
      ∧ left.get? f.rootIndex = some f.folds := by
  rw [file, runOn_node]
  cases known : memo.get? f.rootIndex with
  | some folds =>
    obtain rfl := (agrees _ _ known).of_root
    exact ⟨memo, rfl, agrees, known⟩
  | none =>
    obtain ⟨left, worked, agrees⟩ := yields_lines (f := f) 0 [] none f.lines (fun _ hp => hp) memo
      agrees
    exact ⟨_, runOn_keeping worked, agrees.insert .root, Table.get?_insert_self _ _ _⟩

/-- A walk that is stopped gives what is known, or fails. -/
theorem runOn_file_cancelled (f : SourceFile) (memo : FoldMemo) :
    (file true f).runOn memo
      = ((memo.get? f.rootIndex).elim (.error .requestCancelled) .ok, memo) :=
  runOn_node_cancelled ..

end Folder

/-! ## 4. Edits and requests for folds -/

/-- What is done to an open document, as far as its folds are concerned. -/
inductive FoldCall
  | update (changes : List Change) (version : Int)
  | folds (cancelled : Bool)

namespace FoldCall

def isUpdate : FoldCall → Bool
  | update _ _ => true
  | folds _ => false

/-- The document, edited or left as it is. -/
def edit (d : Document) : FoldCall → Document
  | update changes version => d.update changes version
  | folds _ => d

/-- Folds have been asked for, and were wanted, since the last edit. -/
def Wanted (calls : List FoldCall) : Prop :=
  folds false ∈ calls.reverse.takeWhile (!·.isUpdate)

theorem not_wanted_nil : ¬ Wanted [] := by simp [Wanted]

theorem not_wanted_update (calls : List FoldCall) (changes : List Change) (version : Int) :
    ¬ Wanted (calls ++ [update changes version]) := by
  simp [Wanted, isUpdate]

theorem wanted_folds (calls : List FoldCall) (cancelled : Bool) :
    Wanted (calls ++ [folds cancelled]) ↔ cancelled = false ∨ Wanted calls := by
  simp [Wanted, isUpdate, eq_comm]

/-- What a call makes of an analysis. -/
def after (a : Analysis) : FoldCall → Analysis
  | update changes version => a.update changes version
  | folds cancelled => (a.foldsUnless cancelled).2

end FoldCall

/-- An open document with a memo. -/
structure MemoAnalysis where
  document : Document
  memo : FoldMemo

namespace MemoAnalysis

def create (document : Document) : MemoAnalysis := ⟨document, .empty⟩

def tree (a : MemoAnalysis) : SourceFile := a.document.tree

/-- Edits the document, which makes the memo void. -/
def update (a : MemoAnalysis) (changes : List Change) (version : Int) : MemoAnalysis :=
  .create (a.document.update changes version)

/-- The folds, and what is known afterwards. -/
def foldsUnless (a : MemoAnalysis) (cancelled : Bool) : Except Fault (List Fold) × MemoAnalysis :=
  let walked := (Folder.file cancelled a.tree).runOn a.memo
  (walked.1, { a with memo := walked.2 })

/-- What a call leaves. -/
def after (a : MemoAnalysis) : FoldCall → MemoAnalysis
  | .update changes version => a.update changes version
  | .folds cancelled => (a.foldsUnless cancelled).2

/-- What is known of a document as a whole: of the memo, the folds under the root. -/
def whole (a : MemoAnalysis) : Analysis := ⟨a.document, a.memo.get? a.tree.rootIndex⟩

/-- What holds after any calls: the document is edited and nothing else, the memo is from its tree,
and the folds of all of it are known exactly if they were wanted. -/
structure Follows (d : Document) (calls : List FoldCall) (a : MemoAnalysis) : Prop where
  document : a.document = calls.foldl FoldCall.edit d
  agrees : a.memo.Agrees a.tree
  wanted : FoldCall.Wanted calls → a.memo.get? a.tree.rootIndex = some a.tree.folds
  unwanted : ¬ FoldCall.Wanted calls → a.memo.get? a.tree.rootIndex = none

variable {d : Document} {calls : List FoldCall} {a : MemoAnalysis}

theorem follows_create (d : Document) : Follows d [] (create d) :=
  ⟨rfl, FoldMemo.agrees_empty _, fun h => absurd h FoldCall.not_wanted_nil, fun _ => rfl⟩

theorem foldsUnless_false (h : a.memo.Agrees a.tree) :
    ∃ left, a.foldsUnless false = (.ok a.tree.folds, ⟨a.document, left⟩) ∧ left.Agrees a.tree
      ∧ left.get? a.tree.rootIndex = some a.tree.folds := by
  obtain ⟨left, walked, rest⟩ := Folder.runOn_file h
  refine ⟨left, ?_, rest⟩
  rw [foldsUnless, walked]

theorem foldsUnless_true (a : MemoAnalysis) :
    a.foldsUnless true
      = ((a.memo.get? a.tree.rootIndex).elim (.error .requestCancelled) .ok, a) := by
  rw [foldsUnless, Folder.runOn_file_cancelled]

theorem Follows.after (h : Follows d calls a) (c : FoldCall) :
    Follows d (calls ++ [c]) (a.after c) := by
  have edited : (calls ++ [c]).foldl FoldCall.edit d = c.edit a.document := by
    rw [List.foldl_append, ← h.document]
    rfl
  cases c with
  | update changes version =>
    exact ⟨edited.symm, FoldMemo.agrees_empty _,
      fun wanted => absurd wanted (FoldCall.not_wanted_update calls changes version), fun _ => rfl⟩
  | folds cancelled =>
    cases cancelled with
    | false =>
      obtain ⟨left, walked, agrees, known⟩ := foldsUnless_false h.agrees
      rw [MemoAnalysis.after, walked]
      exact ⟨edited.symm, agrees, fun _ => known,
        fun unwanted => absurd ((FoldCall.wanted_folds ..).mpr (.inl rfl)) unwanted⟩
    | true =>
      have same : FoldCall.Wanted (calls ++ [.folds true]) ↔ FoldCall.Wanted calls := by
        rw [FoldCall.wanted_folds]
        simp
      rw [MemoAnalysis.after, foldsUnless_true]
      exact ⟨edited.symm, h.agrees, fun wanted => h.wanted (same.mp wanted),
        fun unwanted => h.unwanted fun wanted => unwanted (same.mpr wanted)⟩

theorem follows (d : Document) (calls : List FoldCall) :
    Follows d calls (calls.foldl MemoAnalysis.after (create d)) := by
  induction calls using List.reverseRecOn with
  | nil => exact follows_create d
  | append_singleton calls c ih =>
    rw [List.foldl_append]
    exact ih.after c

/-! ## 5. What is known of the whole -/

/-- Asked for its folds, an analysis does what the memo does for the root. -/
theorem whole_foldsUnless (h : a.memo.Agrees a.tree) (cancelled : Bool) :
    a.whole.foldsUnless cancelled
      = ((a.foldsUnless cancelled).1, (a.foldsUnless cancelled).2.whole) := by
  have look : a.whole.folds = a.memo.get? a.tree.rootIndex := rfl
  cases cancelled with
  | false =>
    obtain ⟨left, walked, agrees, known⟩ := foldsUnless_false h
    have after : (MemoAnalysis.mk a.document left).whole = ⟨a.document, some a.tree.folds⟩ :=
      congrArg (Analysis.mk a.document) known
    rw [walked, after, Analysis.foldsUnless, look]
    cases found : a.memo.get? a.tree.rootIndex with
    | some folds =>
      obtain rfl := (h _ _ found).of_root
      exact congrArg (fun fs => (_, Analysis.mk a.document fs)) found
    | none => rfl
  | true =>
    rw [foldsUnless_true, Analysis.foldsUnless, look]
    cases a.memo.get? a.tree.rootIndex <;> rfl

/-- Whatever is done, an analysis knows the folds that the memo has for the root. -/
theorem whole_foldl (d : Document) (calls : List FoldCall) :
    (calls.foldl MemoAnalysis.after (create d)).whole
      = calls.foldl FoldCall.after (Analysis.create d) := by
  induction calls using List.reverseRecOn with
  | nil => rfl
  | append_singleton calls c ih =>
    have agrees := (follows d calls).agrees
    rw [List.foldl_append, List.foldl_append, ← ih]
    generalize calls.foldl MemoAnalysis.after (create d) = a at agrees
    cases c with
    | update changes version => rfl
    | folds cancelled =>
      exact (congrArg Prod.snd (whole_foldsUnless agrees cancelled)).symm

end MemoAnalysis

/-- After any edits and requests for folds, cancelled or not, a memo of folds is coherent. A request
is refused as cancelled, or it is given what a walk with nothing known gives for the document as it
is now, all folds of its tree. It is given that if it is wanted, and if it is cancelled exactly if
one was wanted since the last edit. What is in the memo is from the tree of now, under the nodes of
that tree; what fails leaves it as it is. And an `Analysis`, which knows only the folds of the
whole, does the same. -/
theorem fold_memo (d : Document) (calls : List FoldCall) :
    let now := calls.foldl FoldCall.edit d
    let a := calls.foldl MemoAnalysis.after (.create d)
    let fresh := ((Folder.file false now.tree).runOn .empty).1
    a.document = now
      ∧ fresh = .ok now.tree.folds
      ∧ (∀ cancelled, (a.foldsUnless cancelled).1 = .error .requestCancelled
          ∨ (a.foldsUnless cancelled).1 = fresh)
      ∧ (a.foldsUnless false).1 = fresh
      ∧ ((a.foldsUnless true).1 = fresh ↔ FoldCall.Wanted calls)
      ∧ (∀ id folds, a.memo.get? id = some folds → now.tree.HasFolds id folds
          ∧ ∃ e, (now.tree.root.entries 0 none)[id]? = some e
            ∧ (e.kind = .file ∨ e.kind = .element))
      ∧ (∀ cancelled fault, (a.foldsUnless cancelled).1 = .error fault →
          (a.foldsUnless cancelled).2 = a)
      ∧ calls.foldl FoldCall.after (.create d) = a.whole
      ∧ ∀ cancelled, (a.whole.foldsUnless cancelled).1 = (a.foldsUnless cancelled).1 := by
  intro now a fresh
  have follows : MemoAnalysis.Follows d calls a := MemoAnalysis.follows d calls
  have tree : a.tree = now.tree := congrArg Document.tree follows.document
  have full : fresh = .ok now.tree.folds := by
    obtain ⟨left, walked, -⟩ := Folder.runOn_file (FoldMemo.agrees_empty now.tree)
    exact congrArg Prod.fst walked
  obtain ⟨left, given, -, -⟩ := MemoAnalysis.foldsUnless_false follows.agrees
  have wanted : (a.foldsUnless false).1 = fresh := by rw [given, full, tree]
  have unwanted : (a.foldsUnless true).1 = .error .requestCancelled ∧ ¬ FoldCall.Wanted calls
      ∨ (a.foldsUnless true).1 = fresh ∧ FoldCall.Wanted calls := by
    rw [MemoAnalysis.foldsUnless_true]
    by_cases asked : FoldCall.Wanted calls
    · exact .inr ⟨by rw [follows.wanted asked, full, tree]; rfl, asked⟩
    · exact .inl ⟨by rw [follows.unwanted asked]; rfl, asked⟩
  refine ⟨follows.document, full, fun cancelled => ?_, wanted, ?_, fun id folds kept => ?_,
    fun cancelled fault failed => ?_, (MemoAnalysis.whole_foldl d calls).symm, fun cancelled => ?_⟩
  · cases cancelled with
    | false => exact .inr wanted
    | true => exact unwanted.imp And.left And.left
  · rcases unwanted with ⟨refused, no⟩ | ⟨answered, yes⟩
    · rw [refused, full]
      exact iff_of_false (by simp) no
    · exact iff_of_true answered yes
  · have here : now.tree.HasFolds id folds := tree ▸ follows.agrees id folds kept
    exact ⟨here, here.exists_entry⟩
  · cases cancelled with
    | false => exact absurd (wanted.symm.trans failed) (by rw [full]; simp)
    | true => rw [MemoAnalysis.foldsUnless_true]
  · rw [MemoAnalysis.whole_foldsUnless follows.agrees]

/-- Folds that are known are void after an edit, so that a cancelled request for them fails. -/
theorem fold_memo_of_edit :
    let a := [.folds false, .update [⟨none, ['|', 'x']⟩] 2].foldl MemoAnalysis.after
      (.create (.create "a" "b" 1 ['>', 'p', '\n', ' ', '|', 'x']))
    ¬ FoldCall.Wanted [.folds false, .update [⟨none, ['|', 'x']⟩] 2]
      ∧ (a.foldsUnless true).1 = .error .requestCancelled := by
  intro a
  have edited := FoldCall.not_wanted_update [.folds false] [⟨none, ['|', 'x']⟩] 2
  obtain ⟨-, -, either, -, known, -⟩ :=
    fold_memo (.create "a" "b" 1 ['>', 'p', '\n', ' ', '|', 'x'])
      [.folds false, .update [⟨none, ['|', 'x']⟩] 2]
  exact ⟨edited, (either true).resolve_right fun given => edited (known.mp given)⟩

end OffsideMarkup

import Rllm.Library.FileNames
import Rllm.Library.Loops

/-! # The shards of a checkpoint

The files of a checkpoint are listed in an index, or found by their numbers. The
scan by numbers starts at zero, while the files are numbered from one on.
-/

namespace Rllm

namespace Loader

open Rllm.Path

/-! ## The code -/

/-- What the file system answers. An entry of a directory may fail to be read. -/
structure FileSystem where
  isDir : List Char → Bool
  pathExists : List Char → Bool
  readDir : List Char → Option (List (Option (List Char)))
  readToString : List Char → Option (List Char)

def indexName : List Char := "model.safetensors.index.json".toList

def singleName : List Char := "model.safetensors".toList

def shardSuffix : List Char := ".safetensors".toList

def modelMark : List Char := "model-".toList

def ofMark : List Char := "-of-".toList

/-- What the name of the shard with a number starts with. -/
def shardStart (index : ℕ) : List Char := modelMark ++ zeroPad 5 index ++ ofMark

/-- The first of the entries with this number. -/
def findEntry (dir : List Char) (index : ℕ) : List (Option (List Char)) → Option (List Char)
  | [] | none :: _ => none
  | some name :: entries =>
    if shardStart index <+: name ∧ shardSuffix <:+ name then some (join dir name)
    else findEntry dir index entries

variable (fs : FileSystem)

def findShardByIndex (dir : List Char) (index : ℕ) : Option (List Char) :=
  (fs.readDir dir).bind (findEntry dir index)

/-- The shards up to the first number without one. -/
def numberedShards (dir : List Char) : List ℕ → List (List Char)
  | [] => []
  | i :: rest =>
    match findShardByIndex fs dir i with
    | some p => p :: numberedShards dir rest
    | none => []

/-- A path that may lead anywhere but down. -/
def hasTraversal (f : List Char) : Bool :=
  (components f).any fun c =>
    match c with
    | .normal _ | .curDir => false
    | .rootDir | .parentDir => true

def sanitize (dir f : List Char) : Except String (List Char) :=
  if hasTraversal f then
    .error ("path traversal detected in shard filename: " ++ String.ofList f)
  else .ok (join dir f)

def checkExists (dir p : List Char) : Except String Unit :=
  if components dir ≠ components ['.'] ∧ fs.pathExists p = false then
    .error ("shard file not found: " ++ String.ofList p)
  else .ok ()

variable (parseIndex : List Char → Option (List (List Char × List Char)))

/-- The files that the index names, by name. The entries of the index have no order. -/
def loadShardIndex (indexPath dir : List Char) : Except String (List (List Char)) :=
  match fs.readToString indexPath with
  | none => .error ("reading SafeTensors index " ++ String.ofList indexPath)
  | some content =>
    match parseIndex content with
    | none => .error ("parsing SafeTensors index " ++ String.ofList indexPath)
    | some weightMap => do
      let shardFiles := (weightMap.map Prod.snd).dedup.mergeSort (· ≤ ·)
      let paths ← shardFiles.mapM (sanitize dir)
      paths.forM (checkExists fs dir)
      return paths

def findSafetensorShards (dir : List Char) : Except String (List (List Char)) :=
  if fs.isDir dir = false then
    .error ("model directory does not exist: " ++ String.ofList dir)
  else if fs.pathExists (join dir indexName) then
    loadShardIndex fs parseIndex (join dir indexName) dir
  else if fs.pathExists (join dir singleName) then .ok [join dir singleName]
  else
    let shards := numberedShards fs dir (List.range 1000)
    if shards.isEmpty then
      .error ("no SafeTensors files found in " ++ String.ofList dir)
    else .ok shards

/-! ## Directories of shards -/

def shardName (index count : ℕ) : List Char :=
  shardStart index ++ zeroPad 5 count ++ shardSuffix

/-- The shards as they are published, numbered from one on. -/
def shardNames (count : ℕ) : List (List Char) :=
  (List.range count).map fun i => shardName (i + 1) count

def shardPaths (dir : List Char) (count : ℕ) : List (List Char) :=
  (shardNames count).map (join dir)

/-- A directory with these names in it and no others. -/
structure ModelDir (dir : List Char) (names : List (List Char)) : Prop where
  isDir : fs.isDir dir = true
  readDir : fs.readDir dir = some (names.map some)
  pathExists : ∀ name, components name = [.normal name] →
    (fs.pathExists (join dir name) = true ↔ name ∈ names)

/-- The shards in a directory are those of one checkpoint, next to other files. -/
structure ShardDir (dir : List Char) (names : List (List Char)) (count : ℕ) : Prop
    extends ModelDir fs dir names where
  single : singleName ∉ names
  shards : ∀ name, modelMark <+: name → shardSuffix <:+ name →
    (name ∈ names ↔ name ∈ shardNames count)

/-- The directory has an index, which lists the shards of the checkpoint. -/
structure Indexed (dir : List Char) (names : List (List Char)) (count : ℕ) : Prop
    extends ShardDir fs dir names count where
  index : indexName ∈ names
  listed : ∃ content weightMap, fs.readToString (join dir indexName) = some content ∧
    parseIndex content = some weightMap ∧
    ∀ f, f ∈ weightMap.map Prod.snd ↔ f ∈ shardNames count

variable {fs parseIndex} {dir : List Char} {names : List (List Char)} {count : ℕ}

theorem findEntry_eq_none {index : ℕ}
    (h : ∀ name ∈ names, shardStart index <+: name → ¬ shardSuffix <:+ name) :
    findEntry dir index (names.map some) = none := by
  induction names with
  | nil => rfl
  | cons name names ih =>
    obtain ⟨hname, hrest⟩ := List.forall_mem_cons.mp h
    rw [List.map_cons, findEntry, if_neg fun hs => hname hs.1 hs.2, ih hrest]

/-! ## The scan by numbers -/

theorem shardStart_append_isPrefix {i j : ℕ} {r : List Char} (hi : i < 10 ^ 5) (hj : j < 10 ^ 5)
    (h : shardStart i <+: shardStart j ++ r) : i = j := by
  obtain ⟨t, ht⟩ := h
  simp only [shardStart, List.append_assoc] at ht
  have hpad := (List.append_inj (List.append_cancel_left ht)
    (by rw [length_zeroPad (by decide) hi, length_zeroPad (by decide) hj])).1
  rcases Nat.lt_trichotomy i j with hlt | heq | hlt
  · exact absurd (hpad ▸ zeroPad_lt (by decide) hlt hj) (List.lt_irrefl _)
  · exact heq
  · exact absurd (hpad ▸ zeroPad_lt (by decide) hlt hi) (List.lt_irrefl _)

theorem mem_shardNames {name : List Char} :
    name ∈ shardNames count ↔ ∃ i < count, shardName (i + 1) count = name := by
  simp only [shardNames, List.mem_map, List.mem_range]

theorem ShardDir.findShardByIndex_zero (h : ShardDir fs dir names count) (hcount : count < 1000) :
    findShardByIndex fs dir 0 = none := by
  rw [findShardByIndex, h.readDir, Option.bind_some]
  refine findEntry_eq_none fun name hname hstart hsuffix => ?_
  have hmodel : modelMark <+: name :=
    ((List.prefix_append _ _).trans (List.prefix_append _ _)).trans hstart
  obtain ⟨i, hi, rfl⟩ := mem_shardNames.mp ((h.shards name hmodel hsuffix).mp hname)
  rw [shardName, List.append_assoc] at hstart
  have hzero := shardStart_append_isPrefix (by decide) (by omega) hstart
  omega

theorem ShardDir.not_pathExists_single (h : ShardDir fs dir names count) :
    fs.pathExists (join dir singleName) = false := by
  rw [← Bool.not_eq_true, h.pathExists singleName (by decide)]
  exact h.single

/-- Without an index the shards are not found. -/
theorem ShardDir.findSafetensorShards_eq (h : ShardDir fs dir names count)
    (hindex : indexName ∉ names) (hcount : count < 1000) :
    findSafetensorShards fs parseIndex dir =
      .error ("no SafeTensors files found in " ++ String.ofList dir) := by
  have hpath : fs.pathExists (join dir indexName) = false := by
    rw [← Bool.not_eq_true, h.pathExists indexName (by decide)]
    exact hindex
  rw [findSafetensorShards, h.isDir, hpath, h.not_pathExists_single, List.range_succ_eq_map,
    numberedShards, h.findShardByIndex_zero hcount]
  rfl

/-! ## The index -/

theorem notMem_of_mem_shardNames {name : List Char} (h : name ∈ shardNames count) :
    '/' ∉ name := by
  obtain ⟨i, -, rfl⟩ := mem_shardNames.mp h
  intro hmem
  simp only [shardName, shardStart, List.mem_append] at hmem
  have hdigit : ∀ n, '/' ∉ zeroPad 5 n := by
    intro n hn
    exact absurd (isDigit_of_mem_zeroPad hn) (by decide)
  have hrest : '/' ∉ modelMark ∧ '/' ∉ ofMark ∧ '/' ∉ shardSuffix := by decide
  tauto

theorem components_of_mem_shardNames {name : List Char} (h : name ∈ shardNames count) :
    components name = [.normal name] := by
  refine components_of_notMem (notMem_of_mem_shardNames h) ?_
  obtain ⟨i, -, rfl⟩ := mem_shardNames.mp h
  have hhead : (shardName (i + 1) count).head? = some 'm' := by
    rw [shardName, shardStart, List.append_assoc, List.append_assoc]
    rfl
  simp only [List.mem_cons, List.not_mem_nil, or_false]
  rintro (heq | heq | heq)
  all_goals
    rw [heq] at hhead
    exact absurd hhead (by decide)

theorem shardNames_sorted (hcount : count < 10 ^ 5) : (shardNames count).SortedLT := by
  rw [List.sortedLT_iff_pairwise, shardNames, List.pairwise_map]
  refine List.pairwise_lt_range.imp_of_mem fun {i j} _ hj hij => ?_
  have hj := List.mem_range.mp hj
  simp only [shardName, shardStart, List.append_assoc]
  refine List.append_left_lt
    (append_lt_append ?_ (zeroPad_lt (by decide) (by omega) (by omega)) _ _)
  rw [length_zeroPad (by decide) (by omega), length_zeroPad (by decide) (by omega)]

theorem sort_eq_shardNames (hcount : count < 10 ^ 5) {files : List (List Char)}
    (h : ∀ f, f ∈ files ↔ f ∈ shardNames count) :
    files.dedup.mergeSort (· ≤ ·) = shardNames count := by
  have hmem : ∀ f, f ∈ files.dedup.mergeSort (· ≤ ·) ↔ f ∈ shardNames count := by
    intro f
    rw [List.mem_mergeSort, List.mem_dedup, h]
  have hsorted : (files.dedup.mergeSort (· ≤ ·)).SortedLT :=
    List.sortedLE_mergeSort.sortedLT_of_nodup
      ((List.mergeSort_perm _ _).nodup_iff.mpr files.nodup_dedup)
  exact List.Subset.antisymm_of_sortedLT (fun f => (hmem f).mp) (fun f => (hmem f).mpr) hsorted
    (shardNames_sorted hcount)

theorem sanitize_of_name {name : List Char} (h : components name = [.normal name]) :
    sanitize dir name = .ok (join dir name) := by
  rw [sanitize, hasTraversal, h]
  rfl

/-- With an index the shards are found. -/
theorem Indexed.findSafetensorShards_eq (h : Indexed fs parseIndex dir names count)
    (hcount : count < 1000) :
    findSafetensorShards fs parseIndex dir = .ok (shardPaths dir count) := by
  obtain ⟨content, weightMap, hread, hparse, hlisted⟩ := h.listed
  have hpath : fs.pathExists (join dir indexName) = true :=
    (h.pathExists indexName (by decide)).mpr h.index
  have hpaths : (shardNames count).mapM (sanitize dir) = .ok (shardPaths dir count) :=
    mapM_eq_pure fun name hname => sanitize_of_name (components_of_mem_shardNames hname)
  have hexists : (shardPaths dir count).forM (checkExists fs dir) = .ok () := by
    refine forM_eq_ok fun p hp => ?_
    obtain ⟨name, hname, rfl⟩ := List.mem_map.mp hp
    have hmem : name ∈ names := by
      obtain ⟨i, hi, rfl⟩ := mem_shardNames.mp hname
      refine (h.shards _ ?_ (List.suffix_append _ _)).mpr hname
      exact ((List.prefix_append _ _).trans (List.prefix_append _ _)).trans
        ((List.prefix_append _ _).trans (List.prefix_append _ _))
    rw [checkExists, (h.pathExists name (components_of_mem_shardNames hname)).mpr hmem]
    exact if_neg fun hfalse => absurd hfalse.2 (by decide)
  rw [findSafetensorShards, h.isDir, hpath, if_neg (by decide), if_pos rfl, loadShardIndex, hread]
  dsimp only
  rw [hparse]
  dsimp only
  rw [sort_eq_shardNames (by omega) hlisted, hpaths, ok_bind, hexists]
  rfl

theorem findSafetensorShards_inside {paths : List (List Char)}
    (hindex : fs.pathExists (join dir indexName) = true)
    (h : findSafetensorShards fs parseIndex dir = .ok paths) : ∀ p ∈ paths, Inside dir p := by
  rw [findSafetensorShards, hindex, ite_error_eq_ok_iff, if_pos rfl, loadShardIndex] at h
  obtain ⟨-, h⟩ := h
  split at h
  · cases h
  · split at h
    · cases h
    · obtain ⟨ps, hps, h⟩ := bind_eq_ok.mp h
      obtain ⟨-, -, h⟩ := bind_eq_ok.mp h
      obtain rfl := Except.ok.inj h
      intro p hp
      obtain ⟨f, -, hf⟩ := exists_of_mem_mapM hps hp
      rw [sanitize, ite_error_eq_ok_iff] at hf
      obtain ⟨hsafe, hf⟩ := hf
      obtain rfl := Except.ok.inj hf
      exact join_inside (fun hroot => hsafe (List.any_eq_true.mpr ⟨_, hroot, rfl⟩))
        fun hparent => hsafe (List.any_eq_true.mpr ⟨_, hparent, rfl⟩)

/-- The two ways to find the shards never agree, as only the index finds any. The paths that an
index gives are inside of the directory. -/
theorem findSafetensorShards_disagree {fs' : FileSystem} {names' : List (List Char)}
    (hcount : count < 1000) (h : ShardDir fs dir names count)
    (hindex : indexName ∉ names) (h' : Indexed fs' parseIndex dir names' count) :
    (¬ ∃ paths, findSafetensorShards fs parseIndex dir = .ok paths ∧
      findSafetensorShards fs' parseIndex dir = .ok paths) ∧
    findSafetensorShards fs' parseIndex dir = .ok (shardPaths dir count) ∧
    ∀ g paths, g.pathExists (join dir indexName) = true →
      findSafetensorShards g parseIndex dir = .ok paths → ∀ p ∈ paths, Inside dir p := by
  refine ⟨?_, h'.findSafetensorShards_eq hcount, fun g paths => findSafetensorShards_inside⟩
  rintro ⟨paths, hfound, -⟩
  rw [h.findSafetensorShards_eq hindex hcount] at hfound
  cases hfound

/-! ## A checkpoint in two files -/

/-- A directory with some files, of which the index can be read. -/
def filesOf (dir : List Char) (names : List (List Char)) : FileSystem where
  isDir p := p == dir
  pathExists p := decide (p ∈ names.map (join dir))
  readDir p := if p = dir then some (names.map some) else none
  readToString _ := some []

theorem modelDir_filesOf (hnames : ∀ name ∈ names, name.head? ≠ some '/') :
    ModelDir (filesOf dir names) dir names where
  isDir := beq_self_eq_true dir
  readDir := if_pos rfl
  pathExists name hname := by
    rw [filesOf, decide_eq_true_eq, List.mem_map]
    constructor
    · rintro ⟨other, hother, heq⟩
      exact join_inj (hnames other hother) (head?_ne_of_components hname) heq ▸ hother
    · intro hmem
      exact ⟨name, hmem, rfl⟩

def pairNames : List (List Char) := [shardName 2 2, "config.json".toList, shardName 1 2]

def pairIndex (_ : List Char) : Option (List (List Char × List Char)) :=
  some [("lm_head.weight".toList, shardName 2 2), ("model.norm.weight".toList, shardName 2 2),
    ("model.embed_tokens.weight".toList, shardName 1 2)]

theorem shardDir_pair (others : List (List Char))
    (hothers : ∀ name ∈ others, name.head? ≠ some '/' ∧ name ≠ singleName ∧ ¬ modelMark <+: name) :
    ShardDir (filesOf "m".toList (pairNames ++ others)) "m".toList (pairNames ++ others) 2 where
  toModelDir := modelDir_filesOf fun name hname => by
    rcases List.mem_append.mp hname with hname | hname
    · have hpair : ∀ name ∈ pairNames, name.head? ≠ some '/' := by decide +kernel
      exact hpair name hname
    · exact (hothers name hname).1
  single hmem := by
    rcases List.mem_append.mp hmem with hmem | hmem
    · exact absurd hmem (by decide +kernel)
    · exact (hothers _ hmem).2.1 rfl
  shards name hstart _ := by
    have hpair : ∀ name ∈ pairNames, modelMark <+: name → name ∈ shardNames 2 := by decide +kernel
    have hshards : ∀ name ∈ shardNames 2, name ∈ pairNames := by decide +kernel
    constructor
    · intro hmem
      rcases List.mem_append.mp hmem with hmem | hmem
      · exact hpair name hmem hstart
      · exact absurd hstart (hothers name hmem).2.2
    · intro hmem
      exact List.mem_append_left _ (hshards name hmem)

theorem indexed_pair : Indexed (filesOf "m".toList (pairNames ++ [indexName])) pairIndex
    "m".toList (pairNames ++ [indexName]) 2 where
  toShardDir := shardDir_pair [indexName] (by decide +kernel)
  index := List.mem_append_right _ (List.mem_singleton_self _)
  listed := by
    refine ⟨[], _, rfl, rfl, fun f => ?_⟩
    have hnames : shardNames 2 = [shardName 1 2, shardName 2 2] := rfl
    rw [hnames]
    simp only [List.map_cons, List.map_nil, List.mem_cons, List.not_mem_nil, or_false]
    tauto

/-- The shards of a checkpoint in two files are found with the index only. -/
theorem not_findSafetensorShards_agree :
    ∃ fs fs' parseIndex dir names names', ShardDir fs dir names 2 ∧ indexName ∉ names ∧
      Indexed fs' parseIndex dir names' 2 ∧
      findSafetensorShards fs parseIndex dir ≠ findSafetensorShards fs' parseIndex dir := by
  refine ⟨filesOf "m".toList pairNames, filesOf "m".toList (pairNames ++ [indexName]), pairIndex,
    "m".toList, pairNames, pairNames ++ [indexName], shardDir_pair [] (by simp),
    by decide +kernel, indexed_pair, ?_⟩
  have hpair : ShardDir (filesOf "m".toList pairNames) "m".toList pairNames 2 :=
    shardDir_pair [] (by simp)
  rw [hpair.findSafetensorShards_eq (by decide +kernel) (by decide),
    indexed_pair.findSafetensorShards_eq (by decide)]
  intro h
  cases h

theorem findSafetensorShards_disagree_pair :
    ¬ ∃ paths, findSafetensorShards (filesOf "m".toList pairNames) pairIndex "m".toList =
        .ok paths ∧
      findSafetensorShards (filesOf "m".toList (pairNames ++ [indexName])) pairIndex "m".toList =
        .ok paths :=
  (findSafetensorShards_disagree (by decide) (shardDir_pair [] (by simp)) (by decide +kernel)
    indexed_pair).1

end Loader

end Rllm

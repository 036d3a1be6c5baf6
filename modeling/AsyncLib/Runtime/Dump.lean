import AsyncLib.Lib.Split
import AsyncLib.Runtime.Graph

/-!
# `Dump` and `Load`

`AsyncGraph::Dump` writes one line `input: …` or `output: …` for each name of a node, one line
`kernel name: …` and an empty line. `AsyncGraph::Load` splits each line at every `": "`, asserts
that there are two pieces, and emplaces a node at each empty line. Texts are lists of characters.

* `strSplit`, `getlines`: the pieces between separators; an empty last piece is omitted.
* `loadLine`, `load`: `none` if an assertion fails or a kernel is missing.
* `load_dump_iff`: `Load` restores what `Dump` has written if and only if all names are `Plain`.
-/

namespace AsyncLib

namespace AsyncGraph

variable {F : Type}

/-- `StrSplit(s, delimer)`, for a delimiter without special characters. -/
def strSplit (s delimer : List Char) : List (List Char) :=
  Split.dropEmptyLast (Split.pieces delimer 0 s)

/-- The lines that `std::getline` reads. -/
def getlines (file : List Char) : List (List Char) :=
  Split.dropEmptyLast (Split.pieces ['\n'] 0 file)

/-! ## `Dump` -/

/-- The line of an input. -/
def inputLine (name : String) : List Char := "input: ".toList ++ name.toList

/-- The line of an output. -/
def outputLine (name : String) : List Char := "output: ".toList ++ name.toList

/-- The line of the kernel name. -/
def kernelLine (name : String) : List Char := "kernel name: ".toList ++ name.toList

/-- The lines of a node. -/
def nodeLines (n : AsyncNode F) : List (List Char) :=
  n.mInputNames.map inputLine ++ (n.mOutputNames.map outputLine ++ [kernelLine n.mFuncName, []])

/-- `AsyncGraph::Dump`: every line is followed by `"\n"`. -/
def dump (g : AsyncGraph F) : List Char :=
  (g.mAsyncNodes.flatMap nodeLines).flatMap fun line => line ++ ['\n']

/-! ## `Load` -/

/-- The local variables of `Load`, and the graph. -/
structure Loading (F : Type) where
  inputNames : List String
  outputNames : List String
  kernelFn : F
  kernelName : String
  graph : AsyncGraph F

/-- The body of the loop of `Load`. `getKernelFn` is `GET_KERNEL_FN`. -/
def loadLine (getKernelFn : String → Option F) (s : Loading F) (graphLineInfo : List Char) :
    Option (Loading F) :=
  if graphLineInfo ≠ [] then
    match strSplit graphLineInfo ": ".toList with
    | [key, value] =>
      if key = "input".toList then
        some { s with inputNames := s.inputNames ++ [.ofList value] }
      else if key = "output".toList then
        some { s with outputNames := s.outputNames ++ [.ofList value] }
      else if key = "kernel name".toList then
        (getKernelFn (.ofList value)).map fun fn =>
          { s with kernelName := .ofList value, kernelFn := fn }
      else some s
    -- `assert(res.size() == 2)`
    | _ => none
  else some ⟨[], [], s.kernelFn, "",
    s.graph.emplace s.inputNames s.outputNames s.kernelFn s.kernelName⟩

/-- `AsyncGraph::Load`. The default of `F` is the empty `std::function`. -/
def load [Inhabited F] (getKernelFn : String → Option F) (file : List Char) (g : AsyncGraph F) :
    Option (AsyncGraph F) :=
  ((getlines file).foldlM (loadLine getKernelFn) ⟨[], [], default, "", g⟩).map Loading.graph

/-! ## Names -/

/-- A name that neither breaks its line nor splits it. -/
def Unbroken (x : String) : Prop := '\n' ∉ x.toList ∧ ¬ ": ".toList <:+: x.toList

/-- A name that survives: not empty either. -/
def Plain (x : String) : Prop := x ≠ "" ∧ Unbroken x

/-- The names of a node. -/
def allNames (n : AsyncNode F) : List String := n.mInputNames ++ (n.mOutputNames ++ [n.mFuncName])

/-! ## The lines of a dumped graph -/

theorem strSplit_inputLine (x : String) : strSplit (inputLine x) ": ".toList =
    "input".toList :: strSplit x.toList ": ".toList :=
  Split.dropEmptyLast_cons Split.pieces_ne_nil

theorem strSplit_outputLine (x : String) : strSplit (outputLine x) ": ".toList =
    "output".toList :: strSplit x.toList ": ".toList :=
  Split.dropEmptyLast_cons Split.pieces_ne_nil

theorem strSplit_kernelLine (x : String) : strSplit (kernelLine x) ": ".toList =
    "kernel name".toList :: strSplit x.toList ": ".toList :=
  Split.dropEmptyLast_cons Split.pieces_ne_nil

/-- A name without separator is one piece, or none. -/
theorem strSplit_unbroken {x : String} (h : Unbroken x) :
    strSplit x.toList ": ".toList = if x = "" then [] else [x.toList] := by
  unfold strSplit
  rw [Split.pieces_of_not_infix h.2]
  by_cases hx : x = ""
  · rw [if_pos hx, hx]
    rfl
  · rw [if_neg hx, Split.dropEmptyLast, if_neg]
    simpa using hx

/-- The lines come back from the file if none of them holds a line break. -/
theorem getlines_flatMap {lines : List (List Char)} (h : ∀ l ∈ lines, '\n' ∉ l) :
    getlines (lines.flatMap fun line => line ++ ['\n']) = lines := by
  induction lines with
  | nil => rfl
  | cons l lines ih =>
    have hl := Split.pieces_singleton_append (h l List.mem_cons_self)
      (lines.flatMap fun line => line ++ ['\n'])
    have := ih fun l hl => h l (List.mem_cons_of_mem _ hl)
    rw [getlines] at this ⊢
    rw [List.flatMap_cons, List.append_assoc, List.cons_append, List.nil_append, hl,
      Split.dropEmptyLast_cons Split.pieces_ne_nil, this]

/-- The lines of a node with unbroken names. -/
theorem not_mem_nodeLines {n : AsyncNode F} (h : ∀ x ∈ allNames n, Unbroken x) {l : List Char}
    (hl : l ∈ nodeLines n) : '\n' ∉ l := by
  simp only [nodeLines, List.mem_append, List.mem_map, List.mem_cons, List.not_mem_nil,
    or_false] at hl
  simp only [allNames, List.mem_append, List.mem_singleton] at h
  have happ : ∀ {k : List Char} {x : String}, '\n' ∉ k → Unbroken x → '\n' ∉ k ++ x.toList :=
    fun hk hx hm => (List.mem_append.mp hm).elim hk hx.1
  rcases hl with ⟨x, hx, rfl⟩ | ⟨x, hx, rfl⟩ | rfl | rfl
  · exact happ (by decide) (h x (.inl hx))
  · exact happ (by decide) (h x (.inr (.inl hx)))
  · exact happ (by decide) (h _ (.inr (.inr rfl)))
  · exact List.not_mem_nil

/-! ## Loading plain names -/

section Plain

variable {getKernelFn : String → Option F} {s : Loading F} {x : String}

theorem loadLine_input (h : Plain x) :
    loadLine getKernelFn s (inputLine x) = some { s with inputNames := s.inputNames ++ [x] } := by
  have hne : inputLine x ≠ [] := List.cons_ne_nil _ _
  rw [loadLine, if_pos hne, strSplit_inputLine, strSplit_unbroken h.2, if_neg h.1]
  simp only [↓reduceIte, String.ofList_toList]

theorem loadLine_output (h : Plain x) :
    loadLine getKernelFn s (outputLine x) = some { s with outputNames := s.outputNames ++ [x] } := by
  have hne : outputLine x ≠ [] := List.cons_ne_nil _ _
  rw [loadLine, if_pos hne, strSplit_outputLine, strSplit_unbroken h.2, if_neg h.1]
  have h1 : "output".toList ≠ "input".toList := by decide
  simp only [h1, ↓reduceIte, String.ofList_toList]

theorem loadLine_kernel (h : Plain x) {fn : F} (hfn : getKernelFn x = some fn) :
    loadLine getKernelFn s (kernelLine x) = some { s with kernelName := x, kernelFn := fn } := by
  have hne : kernelLine x ≠ [] := List.cons_ne_nil _ _
  rw [loadLine, if_pos hne, strSplit_kernelLine, strSplit_unbroken h.2, if_neg h.1]
  have h1 : "kernel name".toList ≠ "input".toList := by decide
  have h2 : "kernel name".toList ≠ "output".toList := by decide
  simp only [h1, h2, ↓reduceIte, String.ofList_toList, hfn, Option.map_some]

theorem foldlM_inputs {names : List String} (h : ∀ x ∈ names, Plain x) :
    (names.map inputLine).foldlM (loadLine getKernelFn) s =
      some { s with inputNames := s.inputNames ++ names } := by
  induction names generalizing s with
  | nil => simp
  | cons x names ih =>
    rw [List.map_cons, List.foldlM_cons, loadLine_input (h x List.mem_cons_self)]
    have := ih (s := { s with inputNames := s.inputNames ++ [x] }) fun y hy =>
      h y (List.mem_cons_of_mem _ hy)
    simpa using this

theorem foldlM_outputs {names : List String} (h : ∀ x ∈ names, Plain x) :
    (names.map outputLine).foldlM (loadLine getKernelFn) s =
      some { s with outputNames := s.outputNames ++ names } := by
  induction names generalizing s with
  | nil => simp
  | cons x names ih =>
    rw [List.map_cons, List.foldlM_cons, loadLine_output (h x List.mem_cons_self)]
    have := ih (s := { s with outputNames := s.outputNames ++ [x] }) fun y hy =>
      h y (List.mem_cons_of_mem _ hy)
    simpa using this

/-- The lines of one node make `Load` emplace it. -/
theorem foldlM_nodeLines {n : AsyncNode F} (h : ∀ x ∈ allNames n, Plain x) {fn : F}
    (hfn : getKernelFn n.mFuncName = some fn) (hin : s.inputNames = [])
    (hout : s.outputNames = []) :
    (nodeLines n).foldlM (loadLine getKernelFn) s = some ⟨[], [], fn, "",
      s.graph.emplace n.mInputNames n.mOutputNames fn n.mFuncName⟩ := by
  simp only [allNames, List.mem_append, List.mem_singleton] at h
  have hk : Plain n.mFuncName := h _ (.inr (.inr rfl))
  rw [nodeLines, List.foldlM_append, foldlM_inputs fun x hx => h x (.inl hx)]
  simp only [Option.bind_eq_bind, Option.bind_some]
  rw [List.foldlM_append, foldlM_outputs fun x hx => h x (.inr (.inl hx))]
  simp only [Option.bind_eq_bind, Option.bind_some, List.foldlM_cons]
  rw [loadLine_kernel hk hfn]
  simp [loadLine, hin, hout]

end Plain

/-- What is dumped of a node. -/
def info (n : AsyncNode F) : List String × List String × String :=
  (n.mInputNames, n.mOutputNames, n.mFuncName)

theorem foldlM_nodes {getKernelFn : String → Option F} {nodes : List (AsyncNode F)}
    (h : ∀ n ∈ nodes, ∀ x ∈ allNames n, Plain x)
    (hreg : ∀ n ∈ nodes, (getKernelFn n.mFuncName).isSome) {s : Loading F}
    (hin : s.inputNames = []) (hout : s.outputNames = []) :
    ∃ s', (nodes.flatMap nodeLines).foldlM (loadLine getKernelFn) s = some s' ∧
      s'.graph.mAsyncNodes.map info = s.graph.mAsyncNodes.map info ++ nodes.map info := by
  induction nodes generalizing s with
  | nil => exact ⟨s, rfl, by simp⟩
  | cons n nodes ih =>
    obtain ⟨fn, hfn⟩ := Option.isSome_iff_exists.mp (hreg n List.mem_cons_self)
    obtain ⟨s', hs', hnodes⟩ := ih (fun m hm => h m (List.mem_cons_of_mem _ hm))
      (fun m hm => hreg m (List.mem_cons_of_mem _ hm))
      (s := ⟨[], [], fn, "", s.graph.emplace n.mInputNames n.mOutputNames fn n.mFuncName⟩) rfl rfl
    refine ⟨s', ?_, ?_⟩
    · rw [List.flatMap_cons, List.foldlM_append,
        foldlM_nodeLines (h n List.mem_cons_self) hfn hin hout]
      exact hs'
    · rw [hnodes]
      simp [emplace, info]

/-! ## What `Load` can restore -/

/-- All names that have been read are unbroken. -/
structure Loading.Unbroken (s : Loading F) : Prop where
  inputs : ∀ x ∈ s.inputNames, AsyncGraph.Unbroken x
  outputs : ∀ x ∈ s.outputNames, AsyncGraph.Unbroken x
  kernel : AsyncGraph.Unbroken s.kernelName
  nodes : ∀ n ∈ s.graph.mAsyncNodes, ∀ x ∈ allNames n, AsyncGraph.Unbroken x

theorem unbroken_empty : Unbroken "" := ⟨by decide, by decide⟩

/-- A piece of a line is an unbroken name. -/
theorem unbroken_of_mem {line value : List Char} (hline : '\n' ∉ line)
    (hv : value ∈ strSplit line ": ".toList) : Unbroken (.ofList value) := by
  have hp := Split.mem_of_mem_dropEmptyLast hv
  refine ⟨?_, ?_⟩
  · rw [String.toList_ofList]
    exact fun h => hline (Split.mem_of_mem_pieces hp h)
  · rw [String.toList_ofList (l := value)]
    exact Split.not_infix_of_mem_pieces (by decide) hp

theorem Loading.Unbroken.line {getKernelFn : String → Option F} {s s' : Loading F}
    (h : s.Unbroken) {line : List Char} (hline : '\n' ∉ line)
    (hs : loadLine getKernelFn s line = some s') : s'.Unbroken := by
  unfold loadLine at hs
  split at hs
  · split at hs
    case h_1 key value hsplit =>
      have hv : AsyncGraph.Unbroken (.ofList value) :=
        unbroken_of_mem hline (by rw [hsplit]; simp)
      split_ifs at hs
      · cases hs
        refine ⟨fun x hx => ?_, h.outputs, h.kernel, h.nodes⟩
        rcases List.mem_append.mp hx with hx | hx
        · exact h.inputs x hx
        · exact List.mem_singleton.mp hx ▸ hv
      · cases hs
        refine ⟨h.inputs, fun x hx => ?_, h.kernel, h.nodes⟩
        rcases List.mem_append.mp hx with hx | hx
        · exact h.outputs x hx
        · exact List.mem_singleton.mp hx ▸ hv
      · obtain ⟨fn, -, rfl⟩ := Option.map_eq_some_iff.mp hs
        exact ⟨h.inputs, h.outputs, hv, h.nodes⟩
      · cases hs
        exact h
    case h_2 => cases hs
  · cases hs
    refine ⟨by simp, by simp, unbroken_empty, fun n hn x hx => ?_⟩
    rcases List.mem_append.mp hn with hn | hn
    · exact h.nodes n hn x hx
    · rw [List.mem_singleton.mp hn] at hx
      simp only [allNames, List.mem_append, List.mem_singleton] at hx
      rcases hx with hx | hx | rfl
      · exact h.inputs x hx
      · exact h.outputs x hx
      · exact h.kernel

theorem Loading.Unbroken.lines {getKernelFn : String → Option F} {s s' : Loading F}
    (h : s.Unbroken) {lines : List (List Char)} (hlines : ∀ l ∈ lines, '\n' ∉ l)
    (hs : lines.foldlM (loadLine getKernelFn) s = some s') : s'.Unbroken := by
  induction lines generalizing s with
  | nil =>
    cases hs
    exact h
  | cons l lines ih =>
    obtain ⟨s₁, h1, h2⟩ := Option.bind_eq_some_iff.mp hs
    exact ih (h.line (hlines l List.mem_cons_self) h1)
      (fun m hm => hlines m (List.mem_cons_of_mem _ hm)) h2

/-- No line holds a line break. -/
theorem not_mem_of_mem_getlines {file l : List Char} (h : l ∈ getlines file) : '\n' ∉ l := by
  intro hc
  refine Split.not_infix_of_mem_pieces (d := ['\n']) (by simp) (Split.mem_of_mem_dropEmptyLast h) ?_
  obtain ⟨a, b, rfl⟩ := List.append_of_mem hc
  exact ⟨a, b, by simp⟩

/-- Every line of a successful `Load` is read in some state. -/
theorem exists_loadLine {getKernelFn : String → Option F} {s s' : Loading F}
    {lines : List (List Char)} (hs : lines.foldlM (loadLine getKernelFn) s = some s')
    {l : List Char} (hl : l ∈ lines) : ∃ s₁ s₂, loadLine getKernelFn s₁ l = some s₂ := by
  induction lines generalizing s with
  | nil => cases hl
  | cons m lines ih =>
    obtain ⟨s₁, h1, h2⟩ := Option.bind_eq_some_iff.mp hs
    rcases List.mem_cons.mp hl with rfl | hl
    · exact ⟨s, s₁, h1⟩
    · exact ih h2 hl

/-- The line of an empty name is one piece, and the assertion fails. -/
theorem loadLine_blank {getKernelFn : String → Option F} {s : Loading F} {l : List Char}
    (hl : l = inputLine "" ∨ l = outputLine "" ∨ l = kernelLine "") :
    loadLine getKernelFn s l = none := by
  rcases hl with rfl | rfl | rfl
  · rw [loadLine, strSplit_inputLine, strSplit_unbroken unbroken_empty]
    exact if_pos (List.cons_ne_nil _ _)
  · rw [loadLine, strSplit_outputLine, strSplit_unbroken unbroken_empty]
    exact if_pos (List.cons_ne_nil _ _)
  · rw [loadLine, strSplit_kernelLine, strSplit_unbroken unbroken_empty]
    exact if_pos (List.cons_ne_nil _ _)

/-- The names of nodes with the same information. -/
theorem unbroken_of_info_eq {nodes nodes' : List (AsyncNode F)}
    (he : nodes'.map info = nodes.map info)
    (h : ∀ n ∈ nodes', ∀ x ∈ allNames n, Unbroken x) : ∀ n ∈ nodes, ∀ x ∈ allNames n, Unbroken x := by
  intro n hn x hx
  have hm : info n ∈ nodes'.map info := he ▸ List.mem_map_of_mem hn
  obtain ⟨n', hn', hi⟩ := List.mem_map.mp hm
  refine h n' hn' x ?_
  simp only [info, Prod.mk.injEq] at hi
  rw [allNames, hi.1, hi.2.1, hi.2.2]
  exact hx

/-- **`Load` restores what `Dump` has written exactly when every name is plain**: not empty, without
line break, and without `": "`. -/
theorem load_dump_iff [Inhabited F] (getKernelFn : String → Option F) (g : AsyncGraph F)
    (hreg : ∀ n ∈ g.mAsyncNodes, (getKernelFn n.mFuncName).isSome) :
    (∃ g', load getKernelFn (dump g) (ofNodes []) = some g' ∧
      g'.mAsyncNodes.map info = g.mAsyncNodes.map info) ↔
    ∀ n ∈ g.mAsyncNodes, ∀ x ∈ allNames n, Plain x := by
  have hlines : (∀ n ∈ g.mAsyncNodes, ∀ x ∈ allNames n, Unbroken x) →
      getlines (dump g) = g.mAsyncNodes.flatMap nodeLines := fun h => by
    refine getlines_flatMap fun l hl => ?_
    obtain ⟨n, hn, hl⟩ := List.mem_flatMap.mp hl
    exact not_mem_nodeLines (h n hn) hl
  constructor
  · rintro ⟨g', hload, hinfo⟩
    obtain ⟨s', hs', rfl⟩ := Option.map_eq_some_iff.mp hload
    have hread : s'.Unbroken := by
      refine Loading.Unbroken.lines ⟨by simp, by simp, unbroken_empty, by simp [ofNodes]⟩
        (fun l hl => ?_) hs'
      exact not_mem_of_mem_getlines hl
    have hunbroken := unbroken_of_info_eq hinfo hread.nodes
    rw [hlines hunbroken] at hs'
    intro n hn x hx
    refine ⟨?_, hunbroken n hn x hx⟩
    -- an empty name would stop `Load` at its line
    rintro rfl
    have hblank : ∃ l ∈ nodeLines n, l = inputLine "" ∨ l = outputLine "" ∨ l = kernelLine "" := by
      simp only [allNames, List.mem_append, List.mem_singleton] at hx
      rcases hx with hx | hx | hx
      · exact ⟨_, by simp only [nodeLines, List.mem_append]; exact .inl (List.mem_map_of_mem hx),
          .inl rfl⟩
      · exact ⟨_, by
          simp only [nodeLines, List.mem_append]
          exact .inr (.inl (List.mem_map_of_mem hx)), .inr (.inl rfl)⟩
      · exact ⟨kernelLine n.mFuncName, by simp [nodeLines], .inr (.inr (by rw [← hx]))⟩
    obtain ⟨l, hl, hblank⟩ := hblank
    obtain ⟨s₁, s₂, h⟩ := exists_loadLine hs' (List.mem_flatMap.mpr ⟨n, hn, hl⟩)
    rw [loadLine_blank hblank] at h
    cases h
  · intro h
    obtain ⟨s', hs', hnodes⟩ := foldlM_nodes h hreg (s := ⟨[], [], default, "", ofNodes []⟩) rfl rfl
    refine ⟨s'.graph, ?_, by simpa [ofNodes] using hnodes⟩
    rw [load, hlines fun n hn x hx => (h n hn x hx).2, hs']
    rfl

/-- A start node and a node that runs a kernel on its output. -/
def dumped : AsyncGraph Unit :=
  ofNodes [⟨["output"], ["result0"], (), "run"⟩, ⟨[], ["output"], (), "start"⟩]

/-- The kernels that are registered. -/
def registered (name : String) : Option Unit := if name = "start" ∨ name = "run" then some () else
    none

theorem load_dump_iff_dumped :
    ∃ g', load registered (dump dumped) (ofNodes []) = some g' ∧
      g'.mAsyncNodes.map info = dumped.mAsyncNodes.map info :=
  (load_dump_iff registered dumped (by decide)).mpr (by
    simp only [dumped, ofNodes, allNames, Plain, Unbroken]
    decide)

end AsyncGraph

end AsyncLib

import Datapack.Proofs.Command.Copying
import Datapack.Proofs.Command.Macro
import Datapack.Proofs.Generation.Evaluation
import Datapack.Proofs.Generation.Slots

/-!
# Joining texts at run time

Two texts are joined by a macro function of the library.  It puts them between quotes as they are, so that
their quotes and backslashes are taken for part of the command: what the variable gets is the joined text
exactly when there are none.
-/

namespace Datapack.Command

/-- What the game reads when two texts are put between quotes. -/
def joined (s t : String) : Option String := readText ("\"" ++ (s ++ t) ++ "\"")

theorem joined_eq_append_iff (s t : String) : joined s t = some (s ++ t) ↔ IsPlain (s ++ t) := by
  rw [← readText_eq_self_iff (s ++ t), joined]
  have hquoted : "\"" ++ (s ++ t) ++ "\"" = String.ofList ('"' :: (s ++ t).toList ++ ['"']) := by
    apply String.toList_inj.1
    simp
  rw [hquoted]

end Datapack.Command

namespace Datapack.Generation

open Ir Command

/-- The library function that joins two texts. -/
def concatLibrary : Library := ⟨"concat", ["left", "right"], "$(left)$(right)"⟩

/-- The state after two texts have been put into the inputs of the library. -/
def staged (M : Memory) (io : Slot) (s t : String) : Memory :=
  (M.set (io.child "left") (.text s)).set (io.child "right") (.text t)

/-- The state after the library function has joined its inputs. -/
def afterConcat (M : Memory) (io : Slot) (s t : String) : Memory :=
  (joined s t).elim (staged M io s t) fun x => (staged M io s t).set (io.child "result") (.text x)

section Library

variable {M U : Memory} {io dst : Slot} {s t : String} (hio : io.space = .storage)
  (hopen : (M.data io.target).Opens io.keys)

include hopen

theorem opens_staged (s t : String) : ((staged M io s t).data io.target).Opens io.keys :=
  Memory.opens_set_child (Memory.opens_set_child hopen _) _

include hio

theorem exists_inputs (s t : String) :
    ∃ es, (staged M io s t).data? io = some (.compound es) ∧ es "left" = some (.text s) ∧
      es "right" = some (.text t) := by
  have hfirst : (M.set (io.child "left") (.text s)).data? (io.child "left") = some (.text s) :=
    Memory.data?_set_self (Memory.admits_child (by decide) hopen) _
  have hleft : (staged M io s t).data? (io.child "left") = some (.text s) := by
    rw [staged, Memory.data?_set_child hio (by decide) (by decide) (by decide), hfirst]
  have hright : (staged M io s t).data? (io.child "right") = some (.text t) := by
    have hopen' : ((M.set (io.child "left") (.text s)).data io.target).Opens io.keys :=
      Memory.opens_set_child hopen _
    exact Memory.data?_set_self (Memory.admits_child (by decide) hopen') _
  obtain ⟨es, hes, hl⟩ := Memory.exists_entries (by decide) hleft
  obtain ⟨es', hes', hr⟩ := Memory.exists_entries (by decide) hright
  cases hes.symm.trans hes'
  exact ⟨es, hes, hl, hr⟩

omit hopen hio

/-- The line of the library function with its two inputs. -/
theorem fill_concat (texts : String → Option String) (htarget : '$' ∉ io.target.toList)
    (hpath : '$' ∉ io.path.toList) (hleft : texts "left" = some s) (hright : texts "right" = some t) :
    fill texts ("data modify storage " ++ io.target ++ " " ++ io.path ++ ".result set value \""
        ++ concatLibrary.result ++ "\"") =
      some ("data modify storage " ++ io.target ++ " " ++ (io.child "result").path ++ " set value \""
        ++ (s ++ t ++ "\"")) := by
  have hfront : '$' ∉ ("data modify storage " ++ io.target ++ " " ++ io.path ++ ".result set value \"").toList := by
    simp only [String.toList_append, List.mem_append, htarget, hpath, or_false]
    decide
  have hl : placeholder? "left)$(right)\"".toList = some ("left", "$(right)\"".toList) := by decide
  have hr : placeholder? "right)\"".toList = some ("right", "\"".toList) := by decide
  have hline : "data modify storage " ++ io.target ++ " " ++ io.path ++ ".result set value \""
      ++ concatLibrary.result ++ "\"" =
      String.ofList (("data modify storage " ++ io.target ++ " " ++ io.path ++ ".result set value \"").toList
        ++ '$' :: '(' :: "left)$(right)\"".toList) := by
    apply String.toList_inj.1
    simp [concatLibrary]
  have hsecond : fillChars texts "$(right)\"".toList = some (t.toList ++ ['"']) := by
    have hquote : fillChars texts "\"".toList = some ['"'] := by
      rw [show "\"".toList = ['"'] from rfl, fillChars_cons (by decide), fillChars_nil, Option.map_some]
    rw [show "$(right)\"".toList = '$' :: '(' :: "right)\"".toList from rfl, fillChars_placeholder hr, hright, hquote]
    rfl
  rw [hline, fill_ofList, fillChars_append hfront, fillChars_placeholder hl, hleft, hsecond]
  apply congrArg some
  apply String.toList_inj.1
  simp [Slot.child]

/-- The library function stores what the game reads when the two inputs are put between quotes. -/
theorem instantiate_concat {G : Game} {es : String → Option Data} (hreads : G.ReadsInto (io.child "result"))
    (htarget : '$' ∉ io.target.toList) (hpath : '$' ∉ io.path.toList) (hleft : es "left" = some (.text s))
    (hright : es "right" = some (.text t)) :
    G.instantiate (some (.compound es)) (concatLibrary.body io) =
      (joined s t).map fun x => [.setData (io.child "result") (.str x)] := by
  have htext : ∀ key x, es key = some (.text x) → (es key).map G.textOf = some x := by
    rintro key x h
    rw [h, Option.map_some, Game.textOf]
  have hfill := fill_concat (fun key => (es key).map G.textOf) htarget hpath (htext _ s hleft) (htext _ t hright)
  have hread : G.reads ("data modify storage " ++ io.target ++ " " ++ (io.child "result").path ++ " set value \""
      ++ (s ++ t ++ "\"")) = (joined s t).map fun x => .setData (io.child "result") (.str x) := by
    have hquoted : "\"" ++ (s ++ t) ++ "\"" = "\"" ++ (s ++ t ++ "\"") := String.append_assoc
    rw [joined, hquoted]
    exact hreads (s ++ t ++ "\"")
  simp only [Game.instantiate, Library.body, List.mapM_cons, List.mapM_nil, hfill, Option.bind_some, hread]
  cases joined s t <;> rfl

include hio hopen

/-- Calling the library function on two texts leaves what it reads in its result, if it reads something. -/
theorem runs_concat_iff {G : Game} {f : String} {rest : List Command}
    (hf : G.functions f = some (concatLibrary.body io)) (hreads : G.ReadsInto (io.child "result"))
    (htarget : '$' ∉ io.target.toList) (hpath : '$' ∉ io.path.toList) :
    Runs G (.callWith f io :: rest) (staged M io s t) U ↔ Runs G rest (afterConcat M io s t) U := by
  obtain ⟨es, hes, hleft, hright⟩ := exists_inputs hio hopen s t
  rw [runs_callWith_iff hf, hes, instantiate_concat hreads htarget hpath hleft hright, afterConcat]
  cases joined s t with
  | none => simp
  | some x =>
      have heffect : (staged M io s t).effect (.setData (io.child "result") (.str x)) =
          some ((staged M io s t).set (io.child "result") (.text x)) := rfl
      simp [runs_plain_iff heffect, runs_nil_iff]

/-- The commands that join two texts copy the result of the library function. -/
theorem concat_runs {l r : Command.Operand} (hdst : dst.space = .storage)
    (hl : M.given? l = some (.text s)) (hr : M.given? r = some (.text t))
    (hlapart : ∀ x, l = .slot x → x.target ≠ io.target) (hrapart : ∀ x, r = .slot x → x.target ≠ io.target)
    (htarget : '$' ∉ io.target.toList) (hpath : '$' ∉ io.path.toList) (f : String) :
    ∃ cs, concat dst l r io f = .ok cs ∧ ∀ (G : Game) U, G.functions f = some (concatLibrary.body io) →
      G.ReadsInto (io.child "result") →
        (Runs G cs M U ↔ U = (afterConcat M io s t).copied dst (io.child "result")) := by
  have hchild : ∀ key, (io.child key).space = .storage := fun _ => hio
  obtain ⟨left, hleft, hrunleft⟩ := assign_runs (hchild "left") hl fun heq => hlapart _ heq rfl
  have hr' : (M.set (io.child "left") (.text s)).given? r = some (.text t) := by
    rw [Memory.given?_set (s := io.child "left") hrapart, hr]
  obtain ⟨right, hright, hrunright⟩ := assign_runs (hchild "right") hr' fun heq => hrapart _ heq rfl
  refine ⟨left ++ right ++ [.callWith f io] ++ copy dst (io.child "result"), ?_, ?_⟩
  · rw [concat, hleft, hright]
    rfl
  · intro G U hf hreads
    have hcopy : Runs G (copy dst (io.child "result")) (afterConcat M io s t) U ↔
        U = (afterConcat M io s t).copied dst (io.child "result") := by
      rw [← List.append_nil (copy _ _), runs_copy_iff (hdst.trans (hchild "result").symm), runs_nil_iff]
    rw [List.append_assoc, List.append_assoc, hrunleft, hrunright, List.singleton_append]
    exact (runs_concat_iff hio hopen hf hreads htarget hpath).trans hcopy

/-- The copied result: what the library function reads, else what stood in its result before. -/
theorem data?_joined (hdst : dst.space = .storage) (hapart : dst.target ≠ io.target) (hadmits : M.Admits dst) :
    ((afterConcat M io s t).copied dst (io.child "result")).data? dst =
      ((joined s t).map .text).or ((M.data? (io.child "result")).or (M.data? dst)) := by
  have hne : dst ≠ io.child "result" := by
    rintro rfl
    exact hapart rfl
  have hstaged : (staged M io s t).data? (io.child "result") = M.data? (io.child "result") := by
    rw [staged, Memory.data?_set_child hio (by decide) (by decide) (by decide),
      Memory.data?_set_child hio (by decide) (by decide) (by decide)]
  have hdata : (afterConcat M io s t).data dst.target = M.data dst.target := by
    have hset : ∀ (M : Memory) key v, (M.set (io.child key) v).data dst.target = M.data dst.target :=
      fun M _ v => Memory.data_set_of_ne M v hapart
    rw [afterConcat]
    cases joined s t <;> simp only [Option.elim_none, Option.elim_some, staged, hset]
  have hadmits' : (afterConcat M io s t).Admits dst := by
    rw [Memory.Admits, hdata]
    exact hadmits
  have hresult : (afterConcat M io s t).data? (io.child "result") =
      ((joined s t).map .text).or (M.data? (io.child "result")) := by
    rw [afterConcat]
    cases joined s t with
    | none => exact hstaged
    | some x => exact Memory.data?_set_self (Memory.admits_child (by decide) (opens_staged hopen s t)) _
  rw [Memory.copied_storage hdst hne, hresult]
  cases hjoined : (joined s t).map Data.text with
  | some v => exact Memory.data?_set_self hadmits' v
  | none =>
      cases hold : M.data? (io.child "result") with
      | some v => exact Memory.data?_set_self hadmits' v
      | none =>
          rw [Option.none_or, Option.none_or, Option.elim_none, Memory.data?, hdata]
          rfl

end Library

/-! ## The generator -/

variable {g : Generation} {ins : Instruction} {v : Variable} {l r : Command.Operand}

theorem target_slot (h : (Layout.slot g v).space = .storage) : (Layout.slot g v).target = varsStorage g.ns := by
  have hplace : ∀ path, (place g.ns path v.type).target = varsStorage g.ns := by
    intro path
    rw [space_slot] at h
    rw [place, h]
    rfl
  unfold Layout.slot
  split
  · split
    · exact hplace _
    · exact hplace _
  · exact hplace _

theorem target_ne_of_gives {M : Memory} {ref : Option Reference} {o : Command.Operand} {s : String} {x : Slot}
    (ho : Yields (operand ref) g o g) (hgives : M.given? o = some (.text s)) (hx : o = .slot x) :
    x.target ≠ (libraryIo g.ns).target := by
  subst hx
  have hspace : x.space = .storage := by
    cases hspace : x.space with
    | storage => rfl
    | score =>
        rw [Memory.given?, Memory.value?, hspace] at hgives
        obtain ⟨n, -, hn⟩ := Option.map_eq_some_iff.1 hgives
        cases hn
  obtain ⟨v, rfl⟩ : ∃ v, x = Layout.slot g v := by
    rcases ref with - | ⟨k | w | w | f | c⟩
    all_goals cases ho
    all_goals exact ⟨_, rfl⟩
  rw [target_slot hspace]
  intro heq
  exact absurd (String.append_right_inj _ |>.1 heq) (by decide)

theorem concat_of_joinsTexts (hop : ins.op = .binaryOp) (hjoins : joinsTexts ins = true)
    (hv : varOf (ins.refAt 0) = some v) (hl : Yields (operand (ins.refAt 2)) g l g)
    (hr : Yields (operand (ins.refAt 3)) g r g) (hns : g.ns ≠ "") {cs : List Command}
    (hcs : concat (Layout.slot g v) l r (libraryIo g.ns) (g.helperRef (libraryPath "concat")) = .ok cs) :
    Yields (processors.find ins.op ins) g ()
      ((g.addHelper (libraryPath "concat") (concatLibrary.body (libraryIo g.ns))).emit cs) := by
  have hfind : processors.find .binaryOp = binary := rfl
  rw [hop, hfind]
  unfold binary
  refine (destination_yields hv g).bind (hl.bind (hr.bind ?_))
  unfold joinsTexts at hjoins
  rw [if_pos hjoins]
  refine Yields.bind (a := cs) ?_ (.emit cs)
  have hlibrary : libraries.find? (·.name = "concat") = some concatLibrary := rfl
  unfold callLibrary
  refine Yields.bind (.orFail hlibrary) (.bind .get ?_)
  extract_lets io ref finish side
  rw [if_pos (by simpa using slot_ne_nowhere hns v)]
  have hsides : concat (Layout.slot g v) (side "left") (side "right") io ref = .ok cs := hcs
  rw [hsides]
  exact Yields.bind (.pure cs) (.bind (.change _) (.pure cs))

theorem dollar_not_mem_of_isResourceName {x : String} (h : Text.isResourceName x = true) : '$' ∉ x.toList := by
  simp only [Text.isResourceName, Bool.and_eq_true, List.all_eq_true] at h
  exact fun hmem => absurd (h.2 '$' hmem) (by decide)

section Operation

variable (hop : ins.op = .binaryOp) (hjoins : joinsTexts ins = true) (hv : varOf (ins.refAt 0) = some v)
  (hl : Yields (operand (ins.refAt 2)) g l g) (hr : Yields (operand (ins.refAt 3)) g r g)
  (hns : Text.isResourceName g.ns = true) {M : Memory} {s t : String} (hs : M.given? l = some (.text s))
  (ht : M.given? r = some (.text t)) (hopen : (M.data (libraryIo g.ns).target).Opens (libraryIo g.ns).keys)
  (hadmits : M.Admits (Layout.slot g v))

include hop hjoins hv hl hr hns hs ht hopen hadmits

/-- The commands of an operation that joins texts leave in the variable what the library function reads,
or, if it reads nothing, what the library or the variable has held before. -/
theorem exists_joining :
    ∃ cs, Yields (processors.find ins.op ins) g ()
        ((g.addHelper (libraryPath "concat") (concatLibrary.body (libraryIo g.ns))).emit cs) ∧
      ∀ G : Game,
        G.functions (g.helperRef (libraryPath "concat")) = some (concatLibrary.body (libraryIo g.ns)) →
        G.ReadsInto ((libraryIo g.ns).child "result") →
          ∃ N, (∀ U, Runs G cs M U ↔ U = N) ∧ N.data? (Layout.slot g v) =
            ((joined s t).map .text).or
              ((M.data? ((libraryIo g.ns).child "result")).or (M.data? (Layout.slot g v))) := by
  have hdst : (Layout.slot g v).space = .storage := by
    simp only [joinsTexts, Bool.and_eq_true, decide_eq_true_eq] at hjoins
    rw [space_slot, ← typeOf_of_varOf hv, hjoins.2]
    rfl
  have hapart : (Layout.slot g v).target ≠ (libraryIo g.ns).target := by
    rw [target_slot hdst]
    exact fun heq => absurd (String.append_right_inj _ |>.1 heq) (by decide)
  have hne : g.ns ≠ "" := by
    simp only [Text.isResourceName, Bool.and_eq_true, decide_eq_true_eq] at hns
    exact hns.1
  have htarget : '$' ∉ (libraryIo g.ns).target.toList := by
    have hname := dollar_not_mem_of_isResourceName hns
    simp [libraryIo, Slot.storage, hname]
  obtain ⟨cs, hcs, hruns⟩ := concat_runs (show (libraryIo g.ns).space = .storage from rfl) hopen hdst hs ht
    (fun x => target_ne_of_gives hl hs) (fun x => target_ne_of_gives hr ht) htarget (show '$' ∉ "io".toList by decide)
    (g.helperRef (libraryPath "concat"))
  exact ⟨cs, concat_of_joinsTexts hop hjoins hv hl hr hne hcs, fun G hf hreads =>
    ⟨_, fun U => hruns G U hf hreads, data?_joined rfl hopen hdst hapart hadmits⟩⟩

/-- Joining two texts at run time gives the variable their value exactly when they have neither quotes nor
backslashes; otherwise the variable gets another text, or one that the library or the variable has held
before. -/
theorem binaryOp_joins_iff :
    ∃ cs w, Yields (processors.find ins.op ins) g ()
        ((g.addHelper (libraryPath "concat") (concatLibrary.body (libraryIo g.ns))).emit cs) ∧
      evalBinary ins.binaryOperator (.str s) (.str t) (typeOf (ins.refAt 0)) = some w ∧
      ∀ G : Game,
        G.functions (g.helperRef (libraryPath "concat")) = some (concatLibrary.body (libraryIo g.ns)) →
        G.ReadsInto ((libraryIo g.ns).child "result") →
          ∃ N, (∀ U, Runs G cs M U ↔ U = N) ∧
            (N.data? (Layout.slot g v) = some (.ofLiteral w) ↔ IsPlain (s ++ t) ∨
              joined s t = none ∧ (M.data? ((libraryIo g.ns).child "result")).or
                (M.data? (Layout.slot g v)) = some (.ofLiteral w)) := by
  obtain ⟨cs, hyields, hruns⟩ := exists_joining hop hjoins hv hl hr hns hs ht hopen hadmits
  have hvalue : evalBinary ins.binaryOperator (.str s) (.str t) (typeOf (ins.refAt 0)) =
      some (.str (s ++ t)) := by
    simp only [joinsTexts, Bool.and_eq_true, decide_eq_true_eq] at hjoins
    rw [hjoins.1, evalBinary]
    rfl
  refine ⟨cs, .str (s ++ t), hyields, hvalue, fun G hf hreads => ?_⟩
  obtain ⟨N, hN, hdata⟩ := hruns G hf hreads
  refine ⟨N, hN, ?_⟩
  rw [hdata, ← joined_eq_append_iff]
  cases joined s t with
  | none => simp
  | some x => simp [Data.ofLiteral]

end Operation

private def z : Variable := { id := "z", name := "z", type := .data .string }

private theorem place_z : place "mcfc" "mcfc.z" z.type = .storage "mcfc:vars" "mcfc.z" :=
  congrArg (Slot.storage "mcfc:vars") (holder_eq_self (by decide))

private def joins (s t : String) : Instruction :=
  .binaryOp (some (.var z)) .add (some (.literal (.str s))) (some (.literal (.str t)))

/-- Two texts are joined into a variable. -/
def joining (s t : String) : Stream := [.declare (some (.var z)), joins s t]

/-- Where the variable lives when the generation has come to the operation. -/
private theorem exists_declared (s t : String) :
    ∃ g₀ g, start {} { code := joining s t } [] toString = .ok g₀ ∧
      processFrom processors 0 g₀ ((joining s t).take 1) = (g, none) ∧ g.ns = "mcfc" ∧
      Layout.slot g z = .storage "mcfc:vars" "mcfc.z" := by
  obtain ⟨g₀, g, hstart, hwalk, hns, hslot⟩ : ∃ g₀ g, start {} { code := joining s t } [] toString = .ok g₀ ∧
      processFrom processors 0 g₀ ((joining s t).take 1) = (g, none) ∧ g.ns = "mcfc" ∧
      Layout.slot g z = place "mcfc" "mcfc.z" z.type :=
    ⟨_, _, rfl, rfl, rfl, rfl⟩
  exact ⟨g₀, g, hstart, hwalk, hns, hslot.trans place_z⟩

/-- A game that has the library function and nothing else. -/
def libraryGame : Game where
  functions f := if f = "mcfc:_mcfc/lib/concat" then some (concatLibrary.body (libraryIo "mcfc")) else none
  reads := readInto ((libraryIo "mcfc").child "result")
  spells _ := ""
  other _ _ _ := False

private theorem functions_concat (hns : g.ns = "mcfc") :
    libraryGame.functions (g.helperRef (libraryPath "concat")) = some (concatLibrary.body (libraryIo g.ns)) := by
  rw [Generation.helperRef, hns]
  rfl

private theorem reads_result (hns : g.ns = "mcfc") : libraryGame.ReadsInto ((libraryIo g.ns).child "result") := by
  rw [hns]
  exact readsInto_of_reads rfl

/-- The state before anything has been stored. -/
def blank : Memory := ⟨fun _ => none, fun _ => .empty⟩

/-- Two words are joined. -/
theorem binaryOp_joins_words :
    ∃ g₀ g ins cs N, start {} { code := joining "ab" "cd" } [] toString = .ok g₀ ∧
      processFrom processors 0 g₀ ((joining "ab" "cd").take 1) = (g, none) ∧ (joining "ab" "cd")[1]? = some ins ∧
      Yields (processors.find ins.op ins) g ()
        ((g.addHelper (libraryPath "concat") (concatLibrary.body (libraryIo g.ns))).emit cs) ∧
      (∀ U, Runs libraryGame cs blank U ↔ U = N) ∧
      N.data? (.storage "mcfc:vars" "mcfc.z") = some (.text "abcd") := by
  obtain ⟨g₀, g, hstart, hwalk, hns, hslot⟩ := exists_declared "ab" "cd"
  have hname : Text.isResourceName g.ns = true := by rw [hns]; decide
  have hop : (joins "ab" "cd").op = .binaryOp := rfl
  have hopen : ∀ ks, Data.empty.Opens ks := Data.opens_empty
  obtain ⟨cs, w, hyields, hw, hruns⟩ := binaryOp_joins_iff (M := blank) hop rfl rfl (.pure _) (.pure _) hname rfl rfl
    (hopen _) (hopen _)
  obtain ⟨N, hN, hdata⟩ := hruns libraryGame (functions_concat hns) (reads_result hns)
  have hvalue : evalBinary (joins "ab" "cd").binaryOperator (.str "ab") (.str "cd") (typeOf ((joins "ab" "cd").refAt 0)) =
      some (.str "abcd") := by decide
  obtain rfl := Option.some.inj (hvalue.symm.trans hw)
  rw [hslot] at hdata
  exact ⟨g₀, g, _, cs, N, hstart, hwalk, rfl, hyields, hN, hdata.2 (.inl (by decide))⟩

/-- Two quotes are lost: their value is a text of two quotes, and the variable gets nothing. -/
theorem binaryOp_loses_quotes :
    Program.isValid { code := joining "\"" "\"" } = true ∧
      ∃ g₀ g ins cs N, start {} { code := joining "\"" "\"" } [] toString = .ok g₀ ∧
        processFrom processors 0 g₀ ((joining "\"" "\"").take 1) = (g, none) ∧
        (joining "\"" "\"")[1]? = some ins ∧
        Yields (processors.find ins.op ins) g ()
          ((g.addHelper (libraryPath "concat") (concatLibrary.body (libraryIo g.ns))).emit cs) ∧
        evalBinary ins.binaryOperator (.str "\"") (.str "\"") (typeOf (ins.refAt 0)) = some (.str "\"\"") ∧
        (∀ U, Runs libraryGame cs blank U ↔ U = N) ∧ N.data? (.storage "mcfc:vars" "mcfc.z") = none := by
  obtain ⟨g₀, g, hstart, hwalk, hns, hslot⟩ := exists_declared "\"" "\""
  have hname : Text.isResourceName g.ns = true := by rw [hns]; decide
  have hop : (joins "\"" "\"").op = .binaryOp := rfl
  have hopen : ∀ ks, Data.empty.Opens ks := Data.opens_empty
  obtain ⟨cs, hyields, hruns⟩ := exists_joining (M := blank) hop rfl rfl (.pure _) (.pure _) hname rfl rfl
    (hopen _) (hopen _)
  obtain ⟨N, hN, hdata⟩ := hruns libraryGame (functions_concat hns) (reads_result hns)
  have hblank : ∀ s : Slot, blank.data? s = none := fun s => Data.at?_empty s.keys_ne_nil
  have hread : joined "\"" "\"" = none := by decide
  rw [hread, hblank, hblank, hslot] at hdata
  exact ⟨by decide, g₀, g, _, cs, N, hstart, hwalk, rfl, hyields, by decide, hN, hdata⟩

end Datapack.Generation

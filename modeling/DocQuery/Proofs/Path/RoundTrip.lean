import DocQuery.PathTree.Build
import DocQuery.Proofs.Language.Selectors

/-!
# Paths read back

The text of a path is read as the path, whatever follows it, as long as the path could not go on
there. Between two paths there may be a comma, with blanks around it, or blanks alone; so the texts
of several paths are read as these paths, and the tree that is read is the one they are merged into.

Main names:

* `Path.Ends` — the texts with which a path does not go on;
* `Path.IsTree`, `Path.takes_write` — the text of a path, and what its tree is read as;
* `Path.IsSeparator`, `Path.Joined` — the texts of several paths, with separators between them;
* `Path.round_trip` — the result for single paths and for several.
-/

namespace DocQuery

open Grammar DocQuery.Language

variable {rest : List Char}

/-! ## Steps -/

/-- The mark after an optional step. -/
def Step.mark (s : Step) : List Char :=
  if s.required then [] else ['?']

/-- The tree of a step. -/
def IsStep (s : Step) (tree : Tree) : Prop :=
  tree.rule = .pathSegment ∧
    ∀ path, WrittenStep.ofTree path tree = .ok (.plain s.selector, s.required)

theorem isStep_of_nodes {s : Step} {text : List Char} {nodes : List Tree}
    (hnodes : IsNode .pathSegment text (Then (IsOne (IsSelector s.selector))
      fun marks => marks.isEmpty = s.required ∧ ∀ mark ∈ marks, mark.rule = .optionalMarker) nodes) :
    IsOne (IsStep s) nodes := by
  obtain ⟨place, children, rfl, _, marks, rfl, ⟨selector, rfl, hother, inner, hinner, hread⟩,
    hempty, hmarks⟩ := hnodes
  refine ⟨_, rfl, rfl, fun path => ?_⟩
  obtain ⟨rule, covered, place', children⟩ := selector
  obtain rfl : children = [inner] := hinner
  have hfilter : marks.filter (·.rule == .optionalMarker) = marks := by
    rw [List.filter_eq_self]
    intro mark hmark
    rw [hmarks mark hmark]
    rfl
  have hrequired : (Node.childrenOf .optionalMarker (.mk .pathSegment text place
      ([.mk rule covered place' [inner]] ++ marks))).isEmpty = s.required := by
    have hrule : (rule == .optionalMarker) = false := beq_eq_false_iff_ne.mpr hother
    have hhead : (.mk rule covered place' [inner] :: marks : List Tree).filter (·.rule == .optionalMarker) =
        marks.filter (·.rule == .optionalMarker) :=
      List.filter_cons_of_neg (by rw [Node.rule, hrule]; decide)
    rw [Node.childrenOf, Node.children, List.singleton_append, hhead, hfilter, hempty]
  unfold WrittenStep.ofTree
  rw [hrequired]
  show (WrittenStep.ofSelector path inner >>= fun step => pure (step, s.required)) = _
  rw [hread path]
  rfl

/-- A step without its slash. -/
theorem takes_segment {s : Step} (hs : s.selector.Addressable)
    (hrest : Avoids (.either Rule.nameChar (.oneOf ['?'])) rest) :
    Takes (grammar.call .compound .pathSegment) (s.selector.write ++ s.mark) rest
      (IsOne (IsStep s)) := by
  -- The mark of a step is there precisely if the step is optional.
  have hmark : Takes ((Pattern.optional (.rule .optionalMarker)).run grammar.blank
      ⟨.compound, false⟩ (grammar.call .compound)) s.mark rest
      fun marks => marks.isEmpty = s.required ∧ ∀ mark ∈ marks, mark.rule = .optionalMarker := by
    unfold Step.mark
    cases s.required with
    | true =>
        have hbody : Refuses (grammar.callBody .compound .optionalMarker) rest :=
          refuses_text (hrest.right.not_prefix (by decide) [])
        refine (takes_optional_none (refuses_call
          (refuses_call_of_body grammar_grounded hbody))).imp ?_
        rintro nodes rfl
        exact ⟨rfl, fun mark hmark => absurd hmark List.not_mem_nil⟩
    | false =>
        have hbody : Takes (grammar.callBody .compound .optionalMarker) ['?'] rest Leafless :=
          takes_text ['?']
        refine (takes_optional_some (takes_call
          (takes_call_node grammar_grounded (by decide) hbody))).imp ?_
        rintro nodes ⟨place, children, rfl, _⟩
        refine ⟨rfl, fun mark hmark => ?_⟩
        rw [List.mem_singleton.mp hmark]
        rfl
  have hnext : Avoids Rule.nameChar (s.mark ++ rest) := by
    unfold Step.mark
    split
    · exact hrest.left
    · exact avoids_cons (by decide) _
  have hbody : Takes (grammar.callBody .compound .pathSegment) (s.selector.write ++ s.mark) rest
      (Then (IsOne (IsSelector s.selector))
        fun marks => marks.isEmpty = s.required ∧ ∀ mark ∈ marks, mark.rule = .optionalMarker) :=
    takes_seq_tight (tight_compound false) (takes_selector hs hnext) hmark then_intro
  exact (takes_call_node grammar_grounded (by decide) hbody).imp fun _ => isStep_of_nodes

/-- A step as the grammar has it in a path. -/
abbrev stepPattern : Pattern Rule :=
  .seq (.text ['/']) (.rule .pathSegment)

theorem takes_step {s : Step} (hs : s.selector.Addressable)
    (hrest : Avoids (.either Rule.nameChar (.oneOf ['?'])) rest) :
    Takes (stepPattern.run grammar.blank ⟨.compound, false⟩ (grammar.call .compound)) s.write rest
      (IsOne (IsStep s)) := by
  show Takes _ (['/'] ++ (s.selector.write ++ s.mark)) rest _
  exact takes_seq_tight (tight_compound false) (takes_text ['/'])
    (takes_call (takes_segment hs hrest)) leafless_then

namespace Path

/-! ## Paths -/

/-- The characters with which a path can go on. -/
def continuation : CharClass :=
  .either (.either Rule.nameChar (.oneOf ['?'])) (.oneOf ['/'])

/-- A path cannot go on with this text. -/
def Ends (rest : List Char) : Prop :=
  Avoids continuation rest

theorem ends_nil : Ends [] := avoids_nil _

theorem repeats_steps {steps : List Step} (hsteps : ∀ step ∈ steps, step.selector.Addressable)
    (hrest : Ends rest) :
    Repeats (stepPattern.run grammar.blank ⟨.compound, false⟩ (grammar.call .compound))
      grammar.blank ⟨.compound, false⟩ (steps.flatMap Step.write) rest
      (List.Forall₂ IsStep steps) := by
  have htight := tight_compound false
  induction steps with
  | nil =>
      refine Repeats.done [] (between_tight htight) (refuses_seq_left (refuses_text ?_)) .nil
      exact hrest.right.not_prefix (by decide) []
  | cons step steps ih =>
      obtain ⟨hstep, hsteps⟩ := List.forall_mem_cons.mp hsteps
      have hnext : Avoids (.either Rule.nameChar (.oneOf ['?'])) (steps.flatMap Step.write ++ rest) := by
        cases steps with
        | nil => exact hrest.left
        | cons next steps => exact avoids_cons (by decide) _
      exact Repeats.round [] step.write (between_tight htight) (List.cons_ne_nil _ _)
        (takes_step hstep hnext) (ih hsteps) (forall₂_append_one step steps)

/-- The tree of a path. -/
def IsTree (p : Path) (tree : Tree) : Prop :=
  tree.rule = .path ∧ ofTree tree = .ok p

theorem isTree_of_nodes {p : Path} {text : List Char} {nodes : List Tree}
    (hnodes : IsNode .path text (List.Forall₂ IsStep p.steps) nodes) : IsOne (IsTree p) nodes := by
  obtain ⟨place, children, rfl, hsteps⟩ := hnodes
  refine ⟨_, rfl, rfl, ?_⟩
  have hsegments : Node.childrenOf .pathSegment (.mk .path text place children) = children := by
    rw [Node.childrenOf, Node.children, List.filter_eq_self]
    intro child hchild
    obtain ⟨step, _, hstep⟩ := exists_of_forall₂ hsteps.flip hchild
    rw [hstep.1]
    rfl
  have hwritten : WrittenStep.ofPath (.mk .path text place children) =
      .ok (p.steps.map fun step => (.plain step.selector, step.required)) := by
    unfold WrittenStep.ofPath
    rw [hsegments]
    refine mapM_of_forall₂ (List.forall₂_map_right_iff.mpr ?_)
    exact hsteps.flip.imp fun _ _ hstep => hstep.2 _
  have hplain : (p.steps.map fun step => (WrittenStep.plain step.selector, step.required)).mapM
      (readStep text) = .ok p.steps := by
    refine mapM_of_forall₂ (List.forall₂_map_left_iff.mpr ?_)
    exact List.forall₂_same.mpr fun step _ => rfl
  unfold ofTree
  rw [hwritten]
  show ((p.steps.map fun step => (WrittenStep.plain step.selector, step.required)).mapM
    (readStep text) >>= _) = _
  rw [hplain]
  rfl

/-- The text of a path is taken as a whole where the path cannot go on. -/
theorem takes_write {p : Path} (hp : p.Addressable) (hrest : Ends rest) (outer : Atomicity) :
    Takes (grammar.call outer .path) p.write rest (IsOne (IsTree p)) := by
  obtain ⟨hfirst, hothers⟩ := List.forall_mem_cons.mp hp
  have hnext : Avoids (.either Rule.nameChar (.oneOf ['?'])) (p.rest.flatMap Step.write ++ rest) := by
    cases p.rest with
    | nil => exact hrest.left
    | cons next steps => exact avoids_cons (by decide) _
  have hbody : Takes (grammar.callBody outer .path) (p.first.write ++ p.rest.flatMap Step.write) rest
      (List.Forall₂ IsStep p.steps) :=
    takes_seq_tight (tight_compound false) (takes_step hfirst hnext)
      (takes_star_of_repeats (between_tight (tight_compound false)) (repeats_steps hothers hrest))
      (forall₂_append_one p.first p.rest)
  have hleaves : (grammar.mode .path).LeavesNode outer := ⟨by decide, Or.inr (Or.inl rfl)⟩
  exact (takes_call_node grammar_grounded hleaves hbody).imp fun _ => isTree_of_nodes

theorem avoids_blank_write (p : Path) : Avoids grammar.blank p.write :=
  avoids_cons (by decide) _

theorem read_toText {p : Path} (hp : p.Addressable) : read p.toText = .ok p := by
  obtain ⟨root, tree, hparse, hpaths, _, hread⟩ :=
    isRoot_path.parse_of_takes p.avoids_blank_write (fun _ htree => htree.1)
      (takes_write hp ends_nil .loose)
  unfold read ParseError.parseTree toText
  rw [String.toList_ofList, hparse]
  dsimp only [Except.mapError, bind, Except.bind]
  rw [hpaths]
  exact hread

/-! ## Several paths -/

/-- What may stand between two paths: blanks, or a comma with or without blanks around it. -/
inductive IsSeparator : List Char → Prop
  | blanks {gap : List Char} (hsome : gap ≠ []) (hgap : IsBlank gap) :
      IsSeparator gap
  | comma {gap gap' : List Char} (hgap : IsBlank gap)
      (hgap' : IsBlank gap') : IsSeparator (gap ++ ',' :: gap')

/-- The texts of paths, one after the other, with a separator between each two. -/
inductive Joined : List Path → List Char → Prop
  | nil : Joined [] []
  | one (p : Path) : Joined [p] p.write
  | cons (p : Path) {next : Path} {others : List Path} {separator text : List Char}
      (hseparator : IsSeparator separator) (hothers : Joined (next :: others) text) :
      Joined (p :: next :: others) (p.write ++ (separator ++ text))

/-- The same separator between all paths. -/
theorem joined_intercalate {separator : List Char} (hseparator : IsSeparator separator)
    (paths : List Path) : Joined paths (separator.intercalate (paths.map write)) := by
  induction paths with
  | nil => exact .nil
  | cons p others ih =>
      cases others with
      | nil =>
          rw [List.map_singleton, List.intercalate_singleton]
          exact .one p
      | cons next others =>
          rw [List.map_cons, List.map_cons, List.intercalate_cons_cons, List.append_assoc]
          exact .cons p hseparator ih

/-- A path and the comma after it, as the grammar has it for several paths. -/
abbrev roundPattern : Pattern Rule :=
  .seq (.rule .path) (.optional (.text [',']))

theorem ends_blank {c : Char} (hc : grammar.blank.contains c = true) (tail : List Char) :
    Ends (c :: tail) := by
  have hblanks : ∀ c ∈ [' ', '\t', '\r', '\n'], continuation.contains c = false := by
    decide
  exact avoids_cons (hblanks c (by simpa [grammar, CharClass.contains] using hc)) tail

theorem Joined.exists_slash {paths : List Path} {text : List Char} (htext : Joined paths text)
    (hsome : paths ≠ []) : ∃ tail, text = '/' :: tail := by
  cases htext with
  | nil => exact absurd rfl hsome
  | one p => exact ⟨_, rfl⟩
  | cons p hseparator hothers => exact ⟨_, rfl⟩

theorem takes_round_last {p : Path} (hp : p.Addressable) :
    Takes (roundPattern.run grammar.blank ⟨.loose, true⟩ (grammar.call .loose)) p.write []
      (IsOne (IsTree p)) := by
  have hends : Ends ([] ++ ([] ++ [])) := ends_nil
  have hround := takes_seq [] (takes_call (takes_write hp hends .loose))
    (between_blank isBlank_nil (avoids_nil _))
    (takes_optional_none (refuses_text (by decide : ¬ [','] <+: []))) then_leafless
  simpa using hround

/-- A path and a part of the separator after it are a round, which leaves blanks. -/
theorem takes_round {p : Path} (hp : p.Addressable) {separator : List Char}
    (hseparator : IsSeparator separator) (tail : List Char) :
    ∃ taken gap, separator = taken ++ gap ∧ IsBlank gap ∧
      Takes (roundPattern.run grammar.blank ⟨.loose, true⟩ (grammar.call .loose))
        (p.write ++ taken) (gap ++ '/' :: tail) (IsOne (IsTree p)) := by
  cases hseparator with
  | blanks hsome hgap =>
      refine ⟨separator, [], (List.append_nil _).symm, isBlank_nil, ?_⟩
      have hends : Ends (separator ++ ([] ++ '/' :: tail)) := by
        cases separator with
        | nil => exact absurd rfl hsome
        | cons c separator => exact ends_blank (hgap c (List.mem_cons_self ..)) _
      have hcomma : ¬ [','] <+: '/' :: tail := not_prefix_cons (by decide) _ _
      have hround := takes_seq separator (takes_call (takes_write hp hends .loose))
        (between_blank hgap (avoids_cons (by decide) _)) (takes_optional_none (refuses_text hcomma)) then_leafless
      rwa [List.append_nil] at hround
  | comma hgap hgap' =>
      rename_i gap gap'
      refine ⟨gap ++ [','], gap', by simp, hgap', ?_⟩
      have hends : Ends (gap ++ ([','] ++ (gap' ++ '/' :: tail))) := by
        cases gap with
        | nil => exact avoids_cons (by decide) _
        | cons c gap => exact ends_blank (hgap c (List.mem_cons_self ..)) _
      exact takes_seq gap (takes_call (takes_write hp hends .loose))
        (between_blank hgap (avoids_cons (by decide) _)) (takes_optional_some (takes_text [','])) then_leafless

theorem repeats_none :
    Repeats (roundPattern.run grammar.blank ⟨.loose, true⟩ (grammar.call .loose)) grammar.blank
      ⟨.loose, true⟩ [] [] (List.Forall₂ IsTree []) :=
  .done [] (between_blank isBlank_nil (avoids_nil _)) (refuses_seq_left (refuses_call
    (refuses_call_nil grammar_grounded (by decide : grammar.isSolid 4 .path = true) .loose))) .nil

/-- The paths after blanks, up to the end of the text. -/
theorem repeats_joined {paths : List Path} {text : List Char} (htext : Joined paths text)
    (hpaths : ∀ p ∈ paths, p.Addressable) (hsome : paths ≠ []) {gap : List Char}
    (hgap : IsBlank gap) :
    Repeats (roundPattern.run grammar.blank ⟨.loose, true⟩ (grammar.call .loose)) grammar.blank
      ⟨.loose, true⟩ (gap ++ text) [] (List.Forall₂ IsTree paths) := by
  induction htext generalizing gap with
  | nil => exact absurd rfl hsome
  | one p =>
      have hlast : Takes (roundPattern.run grammar.blank ⟨.loose, true⟩ (grammar.call .loose)) p.write
          ([] ++ []) (IsOne (IsTree p)) := takes_round_last (hpaths p (List.mem_cons_self ..))
      have hround := Repeats.round gap p.write (between_blank hgap (avoids_cons (by decide) _))
        (List.cons_ne_nil _ _) hlast repeats_none (forall₂_append_one p [])
      rwa [List.append_nil] at hround
  | cons p hseparator hothers ih =>
      rename_i next others separator text
      obtain ⟨hp, hpaths⟩ := List.forall_mem_cons.mp hpaths
      obtain ⟨tail, rfl⟩ := hothers.exists_slash (List.cons_ne_nil _ _)
      obtain ⟨taken, gap', rfl, hgap', htakes⟩ := takes_round hp hseparator tail
      have hothers := ih hpaths (List.cons_ne_nil _ _) hgap'
      have htext : gap ++ (p.write ++ (taken ++ gap' ++ '/' :: tail)) =
          gap ++ ((p.write ++ taken) ++ (gap' ++ '/' :: tail)) := by
        simp only [List.append_assoc]
      rw [htext]
      refine .round gap (p.write ++ taken) (between_blank hgap (avoids_cons (by decide) _)) (List.cons_ne_nil _ _)
        ?_ hothers (forall₂_append_one p _)
      rw [List.append_nil]
      exact htakes

theorem readAll_joined {paths : List Path} {text : List Char} (htext : Joined paths text)
    (hpaths : ∀ p ∈ paths, p.Addressable) : readAll (String.ofList text) = .ok paths := by
  have hrepeats : Avoids grammar.blank text ∧
      Repeats (roundPattern.run grammar.blank ⟨.loose, true⟩ (grammar.call .loose)) grammar.blank
        ⟨.loose, true⟩ text [] (List.Forall₂ IsTree paths) := by
    cases paths with
    | nil =>
        cases htext
        exact ⟨avoids_nil _, repeats_none⟩
    | cons p others =>
        obtain ⟨tail, rfl⟩ := htext.exists_slash (List.cons_ne_nil _ _)
        exact ⟨avoids_cons (by decide) _,
          repeats_joined htext hpaths (List.cons_ne_nil _ _) isBlank_nil⟩
  obtain ⟨hblank, hrepeats⟩ := hrepeats
  have hfirst : Between grammar.blank ⟨.loose, true⟩ [] (text ++ []) := by
    rw [List.append_nil]
    exact between_blank isBlank_nil hblank
  obtain ⟨trees, stop, hparse, htrees, hstop⟩ : ∃ nodes stop, Tree.parse .pathSet text =
      .ok (.mk .pathSet text .first (nodes ++ [stop])) ∧ List.Forall₂ IsTree paths nodes ∧
        stop.rule = .endOfInput :=
    parse_of_takes rfl rfl hblank (takes_star_of_repeats hfirst hrepeats)
  -- The set of paths leaves a tree for every path, and one for the end of the text.
  have hchildren : Node.childrenOf .path (.mk .pathSet text .first (trees ++ [stop])) = trees := by
    have hpath : ∀ tree ∈ trees, (tree.rule == Rule.path) = true := by
      intro tree htree
      obtain ⟨p, _, hp⟩ := exists_of_forall₂ htrees.flip htree
      rw [hp.1]
      rfl
    rw [Node.childrenOf, Node.children, List.filter_append, List.filter_eq_self.mpr hpath,
      List.filter_cons_of_neg (by rw [hstop]; decide), List.filter_nil, List.append_nil]
  unfold readAll ParseError.parseTree
  rw [String.toList_ofList, hparse]
  show (Node.childrenOf .path _).mapM ofTree = _
  rw [hchildren]
  exact mapM_of_forall₂ (htrees.flip.imp fun _ _ htree => htree.2)

end Path

/-- The tree of several texts is the tree that the paths are merged into. -/
theorem PathTree.read_joined {paths : List Path} {text : List Char} (htext : Path.Joined paths text)
    (hpaths : ∀ p ∈ paths, p.Addressable) :
    PathTree.read (String.ofList text) = (PathTree.ofPaths paths).mapError .tree := by
  unfold PathTree.read
  rw [Path.readAll_joined htext hpaths]
  rfl

/-- The path with any steps is read from its text, and the texts of any paths, with commas or blanks
between them, are read as the tree of these paths. Only the indices have to fit into 64 bits. -/
theorem Path.round_trip :
    (∀ steps : List Step, steps ≠ [] → (∀ step ∈ steps, step.selector.Addressable) →
      ∃ p, Path.ofSteps? steps = some p ∧ p.steps = steps ∧ Path.read p.toText = .ok p) ∧
    ∀ (paths : List Path) (text : List Char), (∀ p ∈ paths, p.Addressable) →
      Path.Joined paths text →
      PathTree.read (String.ofList text) = (PathTree.ofPaths paths).mapError .tree := by
  refine ⟨fun steps hsome hsteps => ?_, fun paths text hpaths htext =>
    PathTree.read_joined htext hpaths⟩
  cases steps with
  | nil => exact absurd rfl hsome
  | cons first rest => exact ⟨⟨first, rest⟩, rfl, rfl, Path.read_toText hsteps⟩

/-- A property that needs quotes before the largest index there is, and two paths of one step each
with a comma or with blanks between them. -/
theorem Path.round_trip_quoted :
    (∃ p, Path.ofSteps? [⟨.property (some "it's \\"), false⟩, ⟨.item (some (2 ^ 64 - 1)), true⟩] =
        some p ∧ p.toText = "/'it\\'s \\\\'?/[18446744073709551615]" ∧
          Path.read p.toText = .ok p) ∧
      PathTree.read "/$x, /*" = (PathTree.ofPaths [⟨⟨.property (some "$x"), true⟩, []⟩,
        ⟨⟨.property none, true⟩, []⟩]).mapError .tree ∧
      PathTree.read "/$x\t /*" = (PathTree.ofPaths [⟨⟨.property (some "$x"), true⟩, []⟩,
        ⟨⟨.property none, true⟩, []⟩]).mapError .tree := by
  obtain ⟨hsingle, hseveral⟩ := Path.round_trip
  have haddressable : ∀ p ∈ [Path.mk ⟨.property (some "$x"), true⟩ [], ⟨⟨.property none, true⟩, []⟩],
      p.Addressable := by
    simp [Path.Addressable, Path.steps, Selector.Addressable]
  refine ⟨?_, ?_, ?_⟩
  · obtain ⟨p, hp, _, hread⟩ := hsingle
      [⟨.property (some "it's \\"), false⟩, ⟨.item (some (2 ^ 64 - 1)), true⟩] (by decide)
      (by simp [Selector.Addressable])
    refine ⟨p, hp, ?_, hread⟩
    cases hp
    decide +kernel
  · have hcomma : Path.IsSeparator ([] ++ ',' :: [' ']) := .comma isBlank_nil (by decide)
    exact hseveral _ _ haddressable (.cons _ hcomma (.one _))
  · have hblanks : Path.IsSeparator ['\t', ' '] := .blanks (by decide) (by decide)
    exact hseveral _ _ haddressable (.cons _ hblanks (.one _))

end DocQuery

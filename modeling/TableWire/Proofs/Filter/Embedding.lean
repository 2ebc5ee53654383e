import TableWire.Proofs.Filter.Substitution
/-!
Parts compiled inside their node. How many connectives stand above a filter decides whether it is
compiled, but not what it is compiled to, so the record of a node holds what its parts are compiled
to on their own.
-/

namespace TableWire.Filter

variable {b : Bindings} {n m : Nat} {f : Filter String} {c : Compiled}

theorem resolveAt_of_room {g : Filter Value} (run : resolveAt b n f = .ok g)
    (room : m ≤ n ∨ m + f.depth ≤ maxDepth) : resolveAt b m f = .ok g := by
  induction f generalizing n m g with
  | clause c => exact run
  | node k fs ih =>
    obtain ⟨limit, gs, parts, rfl⟩ := resolveAt_node_eq_ok.mp run
    rw [depth] at room
    refine resolveAt_node_eq_ok.mpr ⟨by omega, gs, ?_, rfl⟩
    refine forall₂_imp_of_mem parts fun f hf g part => ?_
    have below := depthAll_le_iff.mp (Nat.le_refl _) f hf
    exact ih f hf part (by omega)

theorem encodeAt_of_room {g : Filter Value} (run : g.encodeAt n = .ok c)
    (room : m ≤ n ∨ m + g.depth ≤ maxDepth) : g.encodeAt m = .ok c := by
  induction g generalizing n m c with
  | clause c => exact run
  | node k gs ih =>
    obtain ⟨limit, cs, parts, rfl⟩ := encodeAt_node_eq_ok.mp run
    rw [depth] at room
    refine encodeAt_node_eq_ok.mpr ⟨by omega, cs, ?_, rfl⟩
    refine forall₂_imp_of_mem parts fun g hg c part => ?_
    have below := depthAll_le_iff.mp (Nat.le_refl _) g hg
    exact ih g hg part (by omega)

/-- Compiles a filter that stands below `n` connectives. -/
def compileAt (b : Bindings) (n : Nat) (f : Filter String) : Except CompileError Compiled :=
  resolveAt b n f >>= encodeAt n

theorem outcome_compile : (f.compile b).outcome = compileAt b 0 f := compile_outcome f b

/-- The number of connectives above a filter has no influence on its record. -/
theorem compileAt_of_room (run : compileAt b n f = .ok c)
    (room : m ≤ n ∨ m + f.depth ≤ maxDepth) : compileAt b m f = .ok c := by
  obtain ⟨g, resolved, encoded⟩ := Except.bind_eq_ok.mp run
  refine Except.bind_eq_ok.mpr ⟨g, resolveAt_of_room resolved room, ?_⟩
  obtain rfl := eq_substitute_of_resolveAt resolved
  exact encodeAt_of_room encoded (by rwa [depth_substitute])

theorem forall₂_compileAt {fs : List (Filter String)} {cs : List Compiled} :
    List.Forall₂ (fun f c => compileAt b n f = .ok c) fs cs ↔
      ∃ gs, List.Forall₂ (fun f g => resolveAt b n f = .ok g) fs gs ∧
        List.Forall₂ (fun g c => g.encodeAt n = .ok c) gs cs := by
  simp only [compileAt, Except.bind_eq_ok]
  exact forall₂_exists_iff

theorem compileAt_node_eq_ok {k : Connective} {fs : List (Filter String)} :
    compileAt b n (.node k fs) = .ok c ↔ n + 1 ≤ maxDepth ∧
      ∃ cs, List.Forall₂ (fun f c => compileAt b (n + 1) f = .ok c) fs cs ∧
        (⟨.composite, CompositeRecord.encode ⟨Int32.ofNat k.code, cs.map (·.envelope)⟩⟩ :
          Compiled) = c := by
  rw [compileAt, Except.bind_eq_ok]
  constructor
  · rintro ⟨_, run', run⟩
    obtain ⟨room, gs, resolved, rfl⟩ := resolveAt_node_eq_ok.mp run'
    obtain ⟨_, cs, encoded, same⟩ := encodeAt_node_eq_ok.mp run
    exact ⟨room, cs, forall₂_compileAt.mpr ⟨gs, resolved, encoded⟩, same⟩
  · rintro ⟨room, cs, parts, same⟩
    obtain ⟨gs, resolved, encoded⟩ := forall₂_compileAt.mp parts
    exact ⟨_, resolveAt_node_eq_ok.mpr ⟨room, gs, resolved, rfl⟩,
      encodeAt_node_eq_ok.mpr ⟨room, cs, encoded, same⟩⟩

/-- The record of a node holds, in their order, the kinds and the bytes of what its parts are
compiled to on their own. If they are compiled, then the node is, unless that makes a path too long.
The length of a record is one of 64 bits, as of all byte strings in memory. -/
theorem compile_node_embeds (b : Bindings) (k : Connective) (fs : List (Filter String)) :
    (∀ c, ((node k fs).compile b).outcome = .ok c → c.kind = .composite ∧
      ∃ cs, List.Forall₂ (fun f d => (f.compile b).outcome = .ok d) fs cs ∧
        (∀ d ∈ cs, d.envelope.kind = Int32.ofNat d.kind.code ∧ d.envelope.body = d.bytes) ∧
        (c.bytes.length < UInt64.size → CompositeRecord.decode? c.bytes =
          some ⟨Int32.ofNat k.code, cs.map (·.envelope)⟩)) ∧
    ((∀ f ∈ fs, ∃ d, (f.compile b).outcome = .ok d) → (node k fs).depth ≤ maxDepth →
      ∃ c, ((node k fs).compile b).outcome = .ok c) := by
  simp only [outcome_compile]
  refine ⟨fun c run => ?_, fun parts shallow => ?_⟩
  · obtain ⟨_, cs, parts, rfl⟩ := compileAt_node_eq_ok.mp run
    refine ⟨rfl, cs, parts.imp fun f d part => ?_, fun d _ => ⟨rfl, rfl⟩,
      CompositeRecord.decode?_encode⟩
    exact compileAt_of_room part (.inl (Nat.zero_le 1))
  · have : Nonempty Compiled := ⟨.single, []⟩
    choose! part compiled using parts
    have below : ∀ f ∈ fs, compileAt b 1 f = .ok (part f) := by
      intro f hf
      have := depthAll_le_iff.mp (Nat.le_refl _) f hf
      rw [depth] at shallow
      exact compileAt_of_room (compiled f hf) (.inr (by omega))
    have limit : 0 + 1 ≤ maxDepth := by decide
    refine ⟨_, compileAt_node_eq_ok.mpr ⟨limit, fs.map part, ?_, rfl⟩⟩
    exact List.forall₂_map_right_iff.mpr (List.forall₂_same.mpr below)

theorem compile_node_embeds_two_parts :
    let b : Bindings := .ofList [("x", .int 1), ("y", .str "v")]
    let fs : List (Filter String) := [.clause ⟨"a", .equal, "x", true, none⟩,
      .node .not [.clause ⟨"b", .less, "y", false, some true⟩]]
    let first : Compiled :=
      ⟨.single, [8, 1, 18, 1, 97, 26, 9, 0, 1, 0, 0, 0, 0, 0, 0, 0, 32, 1]⟩
    let second : Compiled := ⟨.composite, [8, 1, 18, 21, 8, 1, 18, 17, 8, 5, 18, 1, 98, 26, 6,
      3, 1, 0, 0, 0, 118, 32, 0, 40, 1]⟩
    ∃ c, ((node .and fs).compile b).outcome = .ok c ∧ c.kind = .composite ∧
      c.bytes = [8, 2, 18, 22, 8, 1, 18, 18] ++ first.bytes ++ [18, 29, 8, 2, 18, 25] ++
        second.bytes ∧
      List.Forall₂ (fun f d => (f.compile b).outcome = .ok d) fs [first, second] ∧
      CompositeRecord.decode? c.bytes = some ⟨2, [⟨1, first.bytes⟩, ⟨2, second.bytes⟩]⟩ := by
  intro b fs first second
  obtain ⟨embeds, compiles⟩ := compile_node_embeds b .and fs
  have own : List.Forall₂ (fun f d => (f.compile b).outcome = .ok d) fs [first, second] := by
    refine .cons ?_ (.cons ?_ .nil) <;> decide +kernel
  have parts : ∀ f ∈ fs, ∃ d, (f.compile b).outcome = .ok d :=
    List.forall_mem_cons.mpr ⟨⟨first, by decide +kernel⟩,
      List.forall_mem_cons.mpr ⟨⟨second, by decide +kernel⟩, nofun⟩⟩
  obtain ⟨c, run⟩ := compiles parts (by decide)
  obtain ⟨composite, cs, compiled, _, read⟩ := embeds c run
  have same : cs = [first, second] := by
    refine List.right_unique_forall₂' (fun f d d' h h' => ?_) compiled own
    exact Except.ok.inj (h.symm.trans h')
  have bytes : c.bytes = [8, 2, 18, 22, 8, 1, 18, 18] ++ first.bytes ++ [18, 29, 8, 2, 18, 25] ++
      second.bytes := by
    obtain rfl := Except.ok.inj (show .ok _ = Except.ok c from run)
    decide +kernel
  refine ⟨c, run, composite, bytes, own, ?_⟩
  rw [read (by rw [bytes]; decide), same]
  rfl

end TableWire.Filter

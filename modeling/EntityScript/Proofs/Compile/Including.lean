/-
# Libraries that are included

A library of functions can be compiled on its own, for a host that offers its functions to scripts,
or it can be written before a script and compiled with it.  The functions have the same shape then,
and so has the rest of the script: what differs are lines, literals, and the numbers of functions
(`includes_of_compile`).
-/
import EntityScript.Proofs.Compile.Library
import EntityScript.Proofs.Script.Linking
import EntityScript.Proofs.Script.Splitting
import EntityScript.Proofs.Token.Joining

namespace EntityScript

/-- A source of functions, and nothing else outside of them. -/
def FunctionsOnly (source : String) : Prop :=
  ∃ s : Script, s.Spelled (tokens source) ∧ ∀ c ∈ s.body, c.isFunction = true

/-- The functions of the compilation `unit` are spread over two: the first `k` of them are those of
the compilation `first`, and the others, like the script itself, are those of the compilation
`second`. -/
def FunctionId.parted (unit first second k : Nat) (id : FunctionId) : FunctionId :=
  if id.unit ≠ unit then id
  else if 1 ≤ id.serial ∧ id.serial ≤ k then ⟨first, id.serial⟩
  else ⟨second, id.serial - k⟩

/-- The program `p` begins with some code that declares the functions `fs`, which are those of the
program `lib`, and goes on as the program `q`. -/
structure Program.Includes (ρ : FunctionId → FunctionId) (p lib q : Program) (fs : List Function)
    (before : List Placed) : Prop where
  begins : before <+: p.main.chunk.code.toList
  declares : Declares p.main.chunk.literals fs before
  functions : fs.map (Function.shape ρ) = lib.functions.map (Function.shape id)
  continues : (codeShape ρ p.main.chunk.literals p.main.chunk.code.toList).drop before.length =
    codeShape id q.main.chunk.literals q.main.chunk.code.toList
  name : q.main.name = p.main.name

section

variable {unit first second k : Nat}

/-- The functions of the library come first, with the numbers they would have by themselves. -/
theorem FunctionId.parted_first {n : Nat} (hn : 1 ≤ n) (hle : n ≤ k) :
    FunctionId.parted unit first second k ⟨unit, n⟩ = ⟨first, n⟩ := by
  rw [parted, if_neg (not_not_intro rfl), if_pos ⟨hn, hle⟩]

/-- The functions of the script come behind those of the library, counted from one again. -/
theorem FunctionId.parted_second {n : Nat} (hn : 1 ≤ n) :
    FunctionId.parted unit first second k ⟨unit, n + k⟩ = ⟨second, n⟩ := by
  rw [parted, if_neg (not_not_intro rfl),
    if_neg (fun h => by have := h.2; dsimp only at this; omega)]
  exact congrArg _ (Nat.add_sub_cancel n k)

theorem FunctionId.parted_other {id : FunctionId} (h : id.unit ≠ unit) :
    FunctionId.parted unit first second k id = id := by
  rw [parted, if_pos h]

/-- A function is one of another compilation, one of the first part, or one of the second. -/
theorem FunctionId.parted_cases (unit first second k : Nat) (id : FunctionId) :
    (id.unit ≠ unit ∧ (id.parted unit first second k).unit = id.unit ∧
        (id.parted unit first second k).serial = id.serial) ∨
      (id.unit = unit ∧ (id.parted unit first second k).unit = first ∧ 1 ≤ id.serial ∧
        id.serial ≤ k ∧
        (id.parted unit first second k).serial = id.serial) ∨
      (id.unit = unit ∧ (id.parted unit first second k).unit = second ∧
        (id.serial = 0 ∨ k < id.serial) ∧
        (id.parted unit first second k).serial = id.serial - k) := by
  rw [parted]
  split
  · next h => exact .inl ⟨h, rfl, rfl⟩
  · next h =>
    split
    · next hfirst => exact .inr (.inl ⟨not_not.mp h, rfl, hfirst.1, hfirst.2, rfl⟩)
    · next hsecond => exact .inr (.inr ⟨not_not.mp h, rfl, by omega, rfl⟩)

/-- Functions that are called the same in the two parts are the same, if no other compilation is one
of the parts. -/
theorem FunctionId.parted_injective (hne : first ≠ second) {a b : FunctionId}
    (ha : a.unit = unit ∨ a.unit ≠ first ∧ a.unit ≠ second)
    (hb : b.unit = unit ∨ b.unit ≠ first ∧ b.unit ≠ second)
    (h : a.parted unit first second k = b.parted unit first second k) : a = b := by
  have hunit := congrArg FunctionId.unit h
  have hserial := congrArg FunctionId.serial h
  have hcases := parted_cases unit first second k a
  have hcases' := parted_cases unit first second k b
  have hsame : a.unit = b.unit ∧ a.serial = b.serial := by omega
  cases a
  cases b
  exact congrArg₂ FunctionId.mk hsame.1 hsame.2
end

/-- Code of the same shape declares functions of the same shape. -/
theorem Declares.functions_shape {ρ ρ' : FunctionId → FunctionId} {ls ls' : List Literal}
    {fs fs' : List Function} {code code' : List Placed} (h : Declares ls fs code)
    (h' : Declares ls' fs' code') (hcode : codeShape ρ ls code = codeShape ρ' ls' code') :
    fs.map (Function.shape ρ) = fs'.map (Function.shape ρ') := by
  induction h generalizing fs' code' with
  | nil =>
    cases h' with
    | nil => rfl
    | cons => cases hcode
  | @cons f _ _ _ index _ _ hf _ _ _ ih =>
    cases h' with
    | nil => cases hcode
    | @cons f' _ _ _ index' _ _ hf' _ _ hrest =>
      obtain ⟨hfirst, htail⟩ := List.cons.inj hcode
      have hshape : (Literal.shapes ρ ls)[index]? = (Literal.shapes ρ' ls')[index']? :=
        (Prod.mk.inj hfirst).2
      rw [Literal.getElem?_shapes, Literal.getElem?_shapes, hf, hf'] at hshape
      rw [List.map_cons, List.map_cons, ih hrest (List.cons.inj htail).2]
      exact congrArg (· :: _) (Option.some.inj hshape)

/-! ## Names of a host -/

namespace Host

/-- A host offers the functions of a program under their names, too. -/
theorem mem_names_addProgram (host : Host) (p : Program) (x : String) :
    x ∈ (host.addProgram p).names ↔ x ∈ host.names ∨ ∃ f ∈ p.functions, f.name = some x := by
  rw [addProgram]
  induction p.functions generalizing host with
  | nil => simp
  | cons f fs ih =>
    rw [List.foldl_cons, ih]
    have hfirst : x ∈ (host.addNamed f).names ↔ x ∈ host.names ∨ f.name = some x := by
      rw [addNamed]
      cases hname : f.name with
      | none => simp
      | some y =>
        show x ∈ host.natives.keys ++ (host.scripts.insert y f).keys ↔
          x ∈ host.natives.keys ++ host.scripts.keys ∨ _
        rw [List.mem_append, List.mem_append, Std.TreeMap.mem_keys, Std.TreeMap.mem_keys,
          Std.TreeMap.mem_keys, Std.TreeMap.mem_insert, Std.LawfulEqCmp.compare_eq_iff_eq,
          Option.some.injEq, or_assoc]
        exact or_congr_right or_comm
    rw [hfirst, List.exists_mem_cons_iff, or_assoc]

end Host

/-- Functions of the same shape have the same name. -/
theorem Function.name_of_shape {ρ ρ' : FunctionId → FunctionId} {f g : Function}
    (h : f.shape ρ = g.shape ρ') :
    g.name = f.name := by
  rw [Function.shape_eq, Function.shape_eq] at h
  exact (Shape.function.inj h).2.1.symm

/-- Functions of the same shapes are registered under the same names. -/
theorem mem_names_of_shapes {ρ : FunctionId → FunctionId} {fs : List Function} {lib : Program}
    (h : fs.map (Function.shape ρ) = lib.functions.map (Function.shape id)) (host : Host)
    (x : String) :
    x ∈ host.names ∨ (∃ f ∈ fs, f.name = some x) ↔ x ∈ (host.addProgram lib).names := by
  rw [host.mem_names_addProgram]
  refine or_congr_right ⟨?_, ?_⟩
  · rintro ⟨f, hf, hx⟩
    obtain ⟨g, hg, hshape⟩ := List.mem_map.mp (h ▸ List.mem_map_of_mem hf)
    exact ⟨g, hg, (Function.name_of_shape hshape.symm).trans hx⟩
  · rintro ⟨g, hg, hx⟩
    obtain ⟨f, hf, hshape⟩ := List.mem_map.mp
      (h ▸ List.mem_map_of_mem hg : g.shape id ∈ fs.map (Function.shape ρ))
    exact ⟨f, hf, (Function.name_of_shape hshape).symm.trans hx⟩

/-! ## Two parts of a source -/

open Context

/-- What a source compiles to is what the static rules give. -/
theorem eq_of_spelled {unit : Nat} {globals : List String} {source : String} {p : Program}
    (hp : compile unit globals source = .ok p) {s : Script} (hs : s.Spelled (tokens source))
    {b : Block} {c : Context}
    (h : Clause.elaborateAll s.body .empty (.start unit globals) = some (b, c)) :
    p = ⟨.ofBody ⟨unit, 0⟩ none 0 c.literals b s.lastLine, c.strings.reverse⟩ := by
  have hprogram : s.program? unit globals =
      some ⟨.ofBody ⟨unit, 0⟩ none 0 c.literals b s.lastLine, c.strings.reverse⟩ :=
    Script.program?_eq_some_iff.mpr ⟨b, c, h, rfl⟩
  exact Except.ok.inj (hp.symm.trans (compileTokens_of_spelled hs.good hs hprogram))

/-- What a source that consists of functions leaves when something comes after it: the functions
that it has when it is compiled on its own. -/
theorem functions_of_first {unit first : Nat} {globals : List String} {us : List Token}
    {ds : List Clause} (hds : ∀ d ∈ ds, d.isFunction = true) (hus : Spells us (.sequence ds))
    {b : Block} {c : Context}
    (h : Clause.elaborateAll ds .empty (.start unit globals) = some (b, c))
    {source : String} {t : Token} (hsource : tokens source = us ++ [t]) (ht : t.kind = .eof)
    {lib : Program} (hlib : compile first globals source = .ok lib) (second : Nat) :
    ∃ fs, Leaves (.start unit globals) c fs b.postorder ∧ c.literals.length ≤ maxLiterals ∧
    c.unit = unit ∧
      1 ≤ c.serial ∧
      fs.map (Function.shape (.parted unit first second (c.serial - 1))) = lib.functions.map
      (Function.shape id) := by
  obtain ⟨fs, code, hcode, hleaves⟩ := hus.leaves hds rfl h
  obtain rfl : b.postorder = code := hcode
  -- on its own the source has a context in which everything is the same, apart from the compilation
  let ρ : FunctionId → FunctionId := fun id => ⟨first, id.serial⟩
  have hstart : Parallel ρ id 0 (.start unit globals) (.start first globals) :=
    ⟨rfl, .refl _, Nat.zero_le _, fun _ => Iff.rfl, rfl, Nat.le_refl 1, fun _ _ => rfl⟩
  have hempty : SameTree ρ id Block.postorder [] [] .empty .empty := .nil
  obtain ⟨⟨b', c'⟩, h', hyields⟩ := Clause.elaborateAll_parallel (f := id) ds hempty hstart _ h
  rw [Clause.relinedAll_id] at h'
  obtain ⟨hd, htree⟩ : Onward ρ id 0 (.start unit globals) (.start first globals) c c' ∧
      SameTree ρ id Block.postorder c.literals c'.literals b b' := by
    cases hyields with
    | mk hd htree => exact ⟨hd, htree⟩
  have hspelled : (⟨ds, t.line⟩ : Script).Spelled (tokens source) := ⟨us, t, hsource, ht, rfl, hus⟩
  have hprogram := eq_of_spelled hlib hspelled h'
  obtain ⟨fs', code', hcode', hleaves'⟩ := hus.leaves hds rfl h'
  have hfunctions : lib.functions = fs' := by
    obtain ⟨more, hmore, hfs'⟩ := hleaves'.literals
    rw [hprogram, ← hfs']
    exact congrArg _ hmore
  obtain rfl : b'.postorder = code' := hcode'
  have hshapes := hleaves.declares.functions_shape hleaves'.declares htree.eq
  -- all functions are numbered up to the end of the source
  obtain ⟨-, more, new, hcomp, -⟩ := hus.resolves Scope.tidy_start (by trivial) rfl h
  refine ⟨fs, hleaves, hd.parallel.room, hcomp.unit, hcomp.serial, ?_⟩
  rw [hfunctions, ← hshapes]
  refine List.map_congr_left fun f hf => f.shape_congr fun g hg => ?_
  have hmem : g ∈ Literal.familyAll more := by
    have hliteral := (hleaves.declares.mem hf).1
    rw [hcomp.literals] at hliteral
    exact Literal.family_subset_familyAll hliteral hg
  obtain ⟨hunit, hpositive, hlt⟩ := hcomp.numbered.within g hmem
  have hid : g.id = ⟨unit, g.id.serial⟩ := by rw [← show g.id.unit = unit from hunit]
  rw [hid]
  exact FunctionId.parted_first hpositive (Nat.le_sub_one_of_lt hlt)

/-- A library of functions in front of a script, and the script with the library as a part of its
host. -/
theorem includes_of_compile {unit first second : Nat} {host : Host} {source more : String}
    (honly : FunctionsOnly source) {p lib q : Program}
    (hp : compile unit host.names (source ++ "\n" ++ more) = .ok p)
    (hlib : compile first host.names source = .ok lib)
    (hq : compile second (host.addProgram lib).names more = .ok q) :
    ∃ k fs before, p.Includes (.parted unit first second k) lib q fs before := by
  obtain ⟨s₀, ⟨us, t, hsource, ht, -, hus⟩, hfunctions⟩ := honly
  obtain ⟨vs, u, hmore, hu, -⟩ := tokens_spec more
  have hjoined := tokens_joined hsource hus.good more
  -- the script in two parts
  obtain ⟨s, ⟨ws, v, hws, hv, hline, hspells⟩, hprogram⟩ :=
    spelled_of_compileTokens (orderly_tokens _) hp
  rw [hjoined, hmore, List.map_append, ← List.append_assoc] at hws
  obtain ⟨rfl, hlast⟩ := List.append_inj' hws rfl
  obtain ⟨ds, ss, hbody, hds, hus', hss⟩ := hus.split hfunctions hspells
  obtain ⟨b', d, hd, rfl⟩ := Script.program?_eq_some_iff.mp hprogram
  rw [hbody, Clause.elaborateAll_append] at hd
  obtain ⟨⟨b, c⟩, hb, hd⟩ := Option.bind_eq_some_iff.mp hd
  -- what the first part leaves
  obtain ⟨fs, hleaves, hroom, hunit, hserial, hshapes⟩ :=
    functions_of_first hds hus' hb hsource ht hlib second
  generalize hk : c.serial - 1 = k at hshapes
  obtain ⟨code, b₂, hb₂, hcode, hcode₂⟩ := Clause.elaborateAll_after hd .empty
  obtain rfl : b₂.postorder = code := hcode₂
  have hparallel : Parallel (.parted unit first second k) id k c
    (.start second (host.addProgram lib).names) := by
    refine ⟨hleaves.scope.symm, List.nil_subperm, hroom, fun x => ?_, ?_, Nat.le_refl 1,
      fun n hn => ?_⟩
    · rw [hleaves.globals]
      exact (mem_names_of_shapes hshapes host x).symm
    · show c.serial = 1 + k
      omega
    · rw [hunit]
      exact (FunctionId.parted_second hn).symm
  have hempty : SameTree (.parted unit first second k) id Block.postorder c.literals
    [] .empty .empty := .nil
  obtain ⟨⟨b₃, e⟩, hb₃, hyields⟩ := Clause.elaborateAll_parallel (f := (· - t.line)) ss hempty
    hparallel _ hb₂
  obtain ⟨⟨-, hgrown, -⟩, htree⟩ : Onward (.parted unit first second k) id k c
      (.start second (host.addProgram lib).names) d e ∧
      SameTree (.parted unit first second k) id Block.postorder d.literals e.literals b₂ b₃ := by
    cases hyields with
    | mk hon htree => exact ⟨hon, htree⟩
  have hsame : (vs.map (Token.later t.line)).map (Token.relined (· - t.line)) = vs := by
    rw [List.map_map]
    refine (List.map_congr_left fun w _ => ?_).trans (List.map_id vs)
    simp [Token.relined, Token.later]
  have hspelled : (⟨Clause.relinedAll (· - t.line) k ss, u.line⟩ : Script).Spelled
    (tokens more) := by
    refine ⟨vs, u, hmore, hu, rfl, ?_⟩
    have hrelined := hss.relined (f := (· - t.line)) (d := k)
    rwa [hsame] at hrelined
  obtain rfl := eq_of_spelled hq hspelled hb₃
  refine ⟨k, fs, b.postorder, ?_, hleaves.declares.mono hgrown, hshapes, ?_, rfl⟩
  · show b.postorder <+: (b'.postorder ++ placeOn s.lastLine [.nil, .ret])
    rw [hcode, List.append_assoc]
    exact List.prefix_append _ _
  · have hends : SameCode (.parted unit first second k) id d.literals e.literals
      (placeOn s.lastLine [.nil, .ret])
        (placeOn u.line [.nil, .ret]) := .onLine (by decide) _ _
    show (codeShape _ d.literals (b'.postorder ++ placeOn s.lastLine [.nil, .ret])).drop _ =
      codeShape id e.literals (b₃.postorder ++ placeOn u.line [.nil, .ret])
    rw [hcode, List.append_assoc, codeShape_append, List.drop_left' (length_codeShape _ _ _)]
    exact (htree.append hends).eq

end EntityScript

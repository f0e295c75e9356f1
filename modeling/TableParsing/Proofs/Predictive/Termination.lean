import TableParsing.Proofs.FirstFollow.Soundness
import TableParsing.Proofs.Machine.Halting
import TableParsing.Proofs.Predictive.Step
import TableParsing.Proofs.Table.Predictive

/-!
# The predictive machine halts

On a table without overwritten cells every run ends by itself (`exists_bound_parse`), also where
some non-terminals derive no word or are left-recursive. Expansions read nothing and make the stack
larger, so no measure goes down with each of them; instead, whatever the machine finds in a cell
promises that some steps make progress.

The production found for the symbol on top predicts the next symbol for one of two reasons. If the
next symbol is in a FIRST set, a derivation from the symbol on top begins with it, and the way down
to it is made of finitely many rules (`Grammar.Starts`). Each of these rules predicts the next
symbol, so it is the one in its cell, and the machine goes down this way and reads the symbol
(`exists_read`). If the next symbol is in a FOLLOW set, the symbol on top derives the empty word,
and the machine goes through the tree of that derivation and takes the symbol off
(`erases_of_derives_nil`). So either the input gets shorter, or it stays and the stack does.
-/

namespace TableParsing

open FirstFollow

variable {g : Grammar} {next s : Symbol}

/-! ## What a derivation begins with -/

namespace Grammar

/-- The way down to the next symbol: a symbol is that symbol, or it has a rule in whose body only
symbols that derive the empty word come before one with such a way. -/
inductive Starts (g : Grammar) (next : Symbol) : Symbol → Prop
  | self : Starts g next next
  | rule {r : Rule} (hr : r ∈ g.rules) {nulls after : List Symbol} {s : Symbol}
      (hbody : r.body = nulls ++ s :: after) (hnulls : g.Derives nulls [])
      (h : Starts g next s) : Starts g next r.lhs

/-- A form from which the next symbol is derived in front has a way down to it. -/
theorem Derives.exists_starts {u v : List Symbol} (h : g.Derives u (next :: v)) :
    ∃ nulls s after, u = nulls ++ s :: after ∧ g.Derives nulls [] ∧ g.Starts next s := by
  induction h using Relation.ReflTransGen.head_induction_on with
  | refl => exact ⟨[], next, v, rfl, .refl [], .self⟩
  | head hstep _ ih =>
      obtain ⟨nulls, s, rest, hsplit, hnulls, hs⟩ := ih
      cases hstep with
      | @rewrite before after r hr =>
          -- The symbol with the way down stands before the body, in it or behind it.
          rcases append_eq_append_cons hsplit with ⟨middle, hfront, rfl⟩ | ⟨middle, rfl, rfl⟩
          · rcases append_eq_append_cons hfront with ⟨middle', rfl, rfl⟩ | ⟨middle', rfl, hbody⟩
            · exact ⟨nulls, s, middle' ++ r.lhs :: after, by simp, hnulls, hs⟩
            · obtain ⟨left, right, hnil, hbefore, hmiddle⟩ := hnulls.exists_append
              obtain ⟨rfl, rfl⟩ := List.append_eq_nil_iff.mp hnil.symm
              exact ⟨before, r.lhs, after, rfl, hbefore, .rule hr hbody hmiddle hs⟩
          · refine ⟨before ++ r.lhs :: middle, s, rest, by simp, ?_, hs⟩
            exact (Derives.of_step (.rewrite before middle hr)).trans hnulls

/-- A symbol that derives the empty word is the root of a complete tree with nothing to read. -/
theorem Derives.exists_tree_nil (hε : g.isNonTerminal epsilon = false) (hs : s ≠ epsilon)
    (h : g.Derives [s] []) :
    g.isNonTerminal s = true ∧ ∃ t : Tree, t.IsComplete g ∧ t.label = s ∧ t.yield = [] := by
  obtain ⟨trees, htrees, hlabels, hyield⟩ := exists_forest_of_derives hε isWord_nil h
  obtain ⟨t, rfl, rfl⟩ := List.map_eq_singleton_iff.mp hlabels
  have ht := htrees t List.mem_cons_self
  rw [List.flatMap_singleton] at hyield
  exact ⟨ht.isNonTerminal_of_yield_nil hs hyield, t, ht, rfl, hyield⟩

/-- Lists that end at once, or go on with what derives no word and begins with itself. -/
def endless : Grammar where
  rules := [⟨"S", ["a", "S"]⟩, ⟨"S", ["b", "L"]⟩, ⟨"S", ["c"]⟩, ⟨"L", ["L", "x"]⟩]
  rules_ne_nil := List.cons_ne_nil _ _
  skipped := []

/-- The text of the lists. -/
theorem read_endless : read "S -> a S | b L | c\nL -> L x" = .ok endless := rfl

end Grammar

namespace FirstFollow

/-- A right-hand side with a way down to the next symbol begins with it. -/
theorem mem_firstOfSequence_rhs {r : Rule} {nulls after : List Symbol}
    (hbody : r.body = nulls ++ s :: after) (hnulls : g.Derives nulls []) (hne : next ≠ epsilon)
    (hs : next ∈ firstOf (compute g).first s) :
    next ∈ firstOfSequence (compute g).first r.rhs := by
  apply mem_firstOfSequence_of_filter
  rw [← Rule.body, hbody]
  exact mem_firstOfSequence_of_nulls hnulls (mem_firstOfSequence_cons.mpr (Or.inl ⟨hs, hne⟩))

/-- The next symbol is in the FIRST set of a symbol with a way down to it. -/
theorem mem_firstOf_of_starts (hn : g.isNonTerminal next = false) (hne : next ≠ epsilon)
    (h : g.Starts next s) : next ∈ firstOf (compute g).first s := by
  induction h with
  | self =>
      rw [(firstInRange_compute g).other next hn]
      exact SymbolSet.mem_singleton.mpr rfl
  | rule hr hbody hnulls _ ih =>
      obtain ⟨p, hp, rfl⟩ := Grammar.exists_production hr
      exact holds_compute_first hp next (mem_firstOfSequence_rhs hbody hnulls hne ih)

/-- Trees with nothing to read show the input behind them. -/
theorem nextAfter_of_yield_nil {trees : List Tree} (h : ∀ t ∈ trees, t.yield = [])
    (following : Symbol) : nextAfter trees following = following := by
  rw [nextAfter, List.flatMap_eq_nil_iff.mpr h]
  rfl

end FirstFollow

namespace Predictive

variable {c : Config} {top : Due} {rest : List Due}

section steps

variable (hend : g.AvoidsEndMarker) (hε : g.isNonTerminal epsilon = false)
  (hclean : (Table.predictive g (compute g)).overwrites = [])

include hend hclean in
/-- The machine expands a non-terminal by a production that predicts the next symbol. -/
theorem exists_expand {p : Production} (hp : p ∈ g.productions)
    (hnext : next ∈ Table.predicted (compute g) p) (hdue : c.due = top :: rest)
    (htop : top.symbol = p.lhs) (hcurrent : c.input.headD endMarker = next) :
    ∃ c' front, Machine.Steps (step g (Table.predictive g (compute g)) endMarker) 1 c c' ∧
      c'.due = front ++ rest ∧ front.map Due.symbol = p.body ∧ c'.input = c.input := by
  have hn : g.isNonTerminal top.symbol = true :=
    htop ▸ Grammar.isNonTerminal_lhs (Grammar.toRule_mem_rules hp)
  have hne : top.symbol ≠ endMarker := Grammar.ne_of_isNonTerminal hn hend.not_isNonTerminal
  have hcell := Table.get?_predictive_of_clean hclean hp hnext
  rw [← htop, ← hcurrent] at hcell
  have hstep := step_of_expand hdue hne hn hcell htop.symm
  exact ⟨_, dueFrom c.nextNode p.body, .single hstep rfl, rfl, map_symbol_dueFrom _ _, rfl⟩

/-! ## Taking symbols off -/

/-- With a given symbol next, the machine takes a due symbol off and reads nothing. -/
def Erases (g : Grammar) (next s : Symbol) : Prop :=
  ∀ (c : Config) (top : Due) (rest : List Due), c.due = top :: rest → top.symbol = s →
    c.input.headD endMarker = next →
      ∃ n c', Machine.Steps (step g (Table.predictive g (compute g)) endMarker) n c c' ∧
        c'.due = rest ∧ c'.input = c.input

/-- Due symbols are taken off one after the other. -/
theorem erases_all :
    (front : List Due) → (∀ d ∈ front, Erases g next d.symbol) → (c : Config) →
      c.due = front ++ rest → c.input.headD endMarker = next →
        ∃ n c', Machine.Steps (step g (Table.predictive g (compute g)) endMarker) n c c' ∧
          c'.due = rest ∧ c'.input = c.input
  | [], _, c, hdue, _ => ⟨0, c, .refl c, hdue, rfl⟩
  | d :: front, h, c, hdue, hcurrent => by
      obtain ⟨m, c₁, hfirst, hdue₁, hinput₁⟩ :=
        h d List.mem_cons_self c d (front ++ rest) hdue rfl hcurrent
      obtain ⟨n, c₂, hrest, hdue₂, hinput₂⟩ := erases_all front
        (fun e he => h e (List.mem_cons_of_mem _ he)) c₁ hdue₁ (by rwa [hinput₁])
      exact ⟨m + n, c₂, hfirst.trans hrest, hdue₂, hinput₂.trans hinput₁⟩

include hend hε hclean in
/-- The machine goes through a tree with nothing to read, if the next symbol may follow its root. -/
theorem erases_tree {t : Tree} (h : t.IsComplete g) :
    g.isNonTerminal t.label = true → t.yield = [] →
      next ∈ setOf (compute g).follow t.label → Erases g next t.label := by
  induction h with
  | leaf id hs =>
      intro hn
      exact absurd rfl (Grammar.ne_of_isNonTerminal hn hs)
  | @node id r hr children hlabels hchildren ih =>
      intro _ hyield hfollow c top rest hdue htop hcurrent
      obtain ⟨p, hp, rfl⟩ := Grammar.exists_production hr
      rw [Tree.yield_node (Tree.IsDerivation.children_ne_nil hlabels),
        List.flatMap_eq_nil_iff] at hyield
      have hpredicted := lookahead_mem_predicted hε hlabels hchildren hfollow
      rw [nextAfter_of_yield_nil hyield] at hpredicted
      obtain ⟨c₁, front, hexpand, hdue₁, hfront, hinput₁⟩ :=
        exists_expand hend hclean hp hpredicted hdue htop hcurrent
      have hbody := Tree.map_label_bodyTrees hlabels
      -- A due symbol is the root of a child, and what comes after the child may follow it.
      have herases : ∀ d ∈ front, Erases g next d.symbol := by
        intro d hd
        have hd' : d.symbol ∈ (Tree.bodyTrees p.toRule children).map Tree.label := by
          rw [hbody, ← hfront]
          exact List.mem_map_of_mem hd
        obtain ⟨u, hu, hlabel⟩ := List.mem_map.mp hd'
        have hmem := Tree.mem_of_mem_bodyTrees hu
        have hne : u.label ≠ epsilon := by
          apply Rule.ne_epsilon_of_mem_body (r := p.toRule)
          rw [← hbody]
          exact List.mem_map_of_mem hu
        have hn := Tree.IsComplete.isNonTerminal_of_yield_nil (hchildren u hmem) hne (hyield u hmem)
        obtain ⟨before, after, hsplit⟩ := List.append_of_mem hu
        have hafter : ∀ v ∈ after, v ∈ children := fun v hv =>
          Tree.mem_of_mem_bodyTrees (r := p.toRule) (by rw [hsplit]; simp [hv])
        have hfollow' := lookahead_mem_follow hε hr (hsplit ▸ hbody)
          (fun v hv => hchildren v (hafter v hv)) hn hfollow
        rw [nextAfter_of_yield_nil fun v hv => hyield v (hafter v hv)] at hfollow'
        rw [← hlabel]
        exact ih u hmem hn (hyield u hmem) hfollow'
      obtain ⟨n, c₂, hrest, hdue₂, hinput₂⟩ := erases_all front herases c₁ hdue₁ (by rwa [hinput₁])
      exact ⟨1 + n, c₂, hexpand.trans hrest, hdue₂, hinput₂.trans hinput₁⟩

include hend hε hclean in
/-- A symbol that derives the empty word is taken off, if the next symbol may follow it. -/
theorem erases_of_derives_nil (hs : s ≠ epsilon) (hderives : g.Derives [s] [])
    (hfollow : next ∈ setOf (compute g).follow s) : Erases g next s := by
  obtain ⟨hn, t, ht, rfl, hyield⟩ := hderives.exists_tree_nil hε hs
  exact erases_tree hend hε hclean ht hn hyield hfollow

include hend hε hclean in
/-- In a body the symbols before one with a way down to the next symbol are taken off, if they
derive the empty word. -/
theorem erases_of_mem_nulls {r : Rule} (hr : r ∈ g.rules) {nulls after : List Symbol}
    (hbody : r.body = nulls ++ s :: after) (hnulls : g.Derives nulls []) (hne : next ≠ epsilon)
    (hfirst : next ∈ firstOf (compute g).first s) : ∀ x ∈ nulls, Erases g next x := by
  intro x hx
  obtain ⟨before, behind, rfl⟩ := List.append_of_mem hx
  -- Each part of what derives the empty word does so.
  obtain ⟨_, _, hnil, -, hrest⟩ := hnulls.exists_append
  obtain ⟨-, rfl⟩ := List.append_eq_nil_iff.mp hnil.symm
  obtain ⟨_, _, hnil, hderives, hbehind⟩ := Grammar.Derives.exists_append (u := [x]) hrest
  obtain ⟨rfl, rfl⟩ := List.append_eq_nil_iff.mp hnil.symm
  have hsplit : r.body = before ++ x :: (behind ++ s :: after) := by
    rw [hbody]
    simp
  have hxε : x ≠ epsilon := by
    apply Rule.ne_epsilon_of_mem_body (r := r)
    rw [hsplit]
    simp
  refine erases_of_derives_nil hend hε hclean hxε hderives ?_
  refine mem_follow_of_body hr hsplit (hderives.exists_tree_nil hε hxε).1 (Or.inl ⟨?_, hne⟩)
  exact mem_firstOfSequence_of_nulls hbehind
    (mem_firstOfSequence_cons.mpr (Or.inl ⟨hfirst, hne⟩))

/-! ## Reading on -/

include hend hε hclean in
/-- The machine goes down to the next symbol and reads it. -/
theorem exists_read (hterminal : next ∈ g.terminals) (hstarts : g.Starts next s) :
    ∀ (c : Config) (top : Due) (rest : List Due), c.due = top :: rest → top.symbol = s →
      c.input.headD endMarker = next →
        ∃ n c', Machine.Steps (step g (Table.predictive g (compute g)) endMarker) n c c' ∧
          c'.input = c.input.tail := by
  obtain ⟨-, hneε, hn⟩ := Grammar.mem_terminals.mp hterminal
  induction hstarts with
  | self =>
      intro c top rest hdue htop hcurrent
      have hne : top.symbol ≠ endMarker := by
        intro hmarker
        rw [← htop, hmarker] at hterminal
        exact hend.not_mem_terminals hterminal
      have hstep : step g (Table.predictive g (compute g)) endMarker c = _ :=
        step_of_match hdue hne (htop ▸ hn) (hcurrent.trans htop.symm)
      exact ⟨1, _, .single hstep rfl, rfl⟩
  | @rule r hr nulls after s hbody hnulls hs ih =>
      intro c top rest hdue htop hcurrent
      obtain ⟨p, hp, rfl⟩ := Grammar.exists_production hr
      have hfirst := mem_firstOf_of_starts hn hneε hs
      have hpredicted : next ∈ Table.predicted (compute g) p :=
        mem_predicted.mpr
          (Or.inl ⟨mem_firstOfSequence_rhs hbody hnulls hneε hfirst, hneε⟩)
      obtain ⟨c₁, front, hexpand, hdue₁, hfront, hinput₁⟩ :=
        exists_expand hend hclean hp hpredicted hdue htop hcurrent
      rw [hbody, List.map_eq_append_iff] at hfront
      obtain ⟨left, right, rfl, hleft, hright⟩ := hfront
      obtain ⟨top', right', rfl, htop', -⟩ := List.map_eq_cons_iff.mp hright
      rw [List.append_assoc] at hdue₁
      have herases : ∀ d ∈ left, Erases g next d.symbol := fun d hd =>
        erases_of_mem_nulls hend hε hclean hr hbody hnulls hneε hfirst d.symbol
          (hleft ▸ List.mem_map_of_mem hd)
      obtain ⟨m, c₂, herase, hdue₂, hinput₂⟩ := erases_all left herases c₁ hdue₁ (by rwa [hinput₁])
      obtain ⟨n, c₃, hread, hinput₃⟩ := ih c₂ top' (right' ++ rest) hdue₂ htop'
        (by rwa [hinput₂, hinput₁])
      exact ⟨1 + m + n, c₃, (hexpand.trans herase).trans hread, by rw [hinput₃, hinput₂, hinput₁]⟩

/-! ## Progress -/

/-- The rest of the input, and then the stack. -/
def Config.load (c : Config) : Nat ×ₗ Nat := toLex (c.input.length, c.due.length)

/-- Reading a symbol makes the load smaller. -/
theorem load_lt_of_tail {c' : Config} (hinput : c'.input = c.input.tail) (hne : c.input ≠ []) :
    c'.load < c.load := by
  have hpos := List.length_pos_iff.mpr hne
  refine Prod.Lex.toLex_lt_toLex.mpr (Or.inl ?_)
  rw [hinput, List.length_tail]
  omega

/-- Taking a symbol off makes the load smaller. -/
theorem load_lt_of_rest {c' : Config} (hdue : c.due = top :: rest) (hinput : c'.input = c.input)
    (hrest : c'.due = rest) : c'.load < c.load := by
  refine Prod.Lex.toLex_lt_toLex.mpr (Or.inr ⟨by rw [hinput], ?_⟩)
  rw [hdue, hrest]
  exact Nat.lt_succ_self _

/-- An input whose first symbol is not the end marker is not empty. -/
theorem input_ne_nil (hcurrent : c.input.headD endMarker ≠ endMarker) : c.input ≠ [] := by
  intro hnil
  rw [hnil] at hcurrent
  exact hcurrent rfl

include hend hε hclean in
/-- With a production found for the symbol on top, some steps make the load smaller. -/
theorem exists_load_lt {p : Production} (hp : p ∈ g.productions)
    (hpredicted : c.input.headD endMarker ∈ Table.predicted (compute g) p)
    (hdue : c.due = top :: rest) (hlhs : p.lhs = top.symbol) :
    ∃ n c', Machine.Steps (step g (Table.predictive g (compute g)) endMarker) n c c' ∧
      c'.load < c.load := by
  have hr := Grammar.toRule_mem_rules hp
  have hbody : ∀ s ∈ p.body, s ≠ epsilon := fun s hs => Rule.ne_epsilon_of_mem_body hs
  have hfilter := fun x => mem_firstOfSequence_filter (firstInRange_compute g) hε (x := x) p.rhs
  rcases mem_predicted.mp hpredicted with ⟨hmem, hne⟩ | ⟨hmem, hfollow⟩
  · have hterminal := ((firstInRange_compute g).mem_firstOfSequence
      (fun s hs => Grammar.mem_rhs_cases hr hs) hmem).resolve_left hne
    obtain ⟨v, hderives⟩ :=
      ((sound_compute hε).begins p.body hbody ((hfilter _).mpr hmem)).exists_derives hne
    obtain ⟨nulls, s, after, hsplit, -, hstarts⟩ :=
      ((Grammar.Derives.of_rule hr).trans hderives).exists_starts
    have hs : s = p.lhs := by
      have hmem : s ∈ [p.lhs] := hsplit ▸ List.mem_append_right _ List.mem_cons_self
      exact List.mem_singleton.mp hmem
    obtain ⟨n, c', hsteps, hinput⟩ := exists_read hend hε hclean hterminal hstarts c top rest hdue
      (hlhs.symm.trans hs.symm) rfl
    refine ⟨n, c', hsteps, load_lt_of_tail hinput (input_ne_nil ?_)⟩
    intro hmarker
    exact hend.not_mem_terminals (hmarker ▸ hterminal)
  · have hderives :=
      ((sound_compute hε).begins p.body hbody ((hfilter _).mpr hmem)).derives_nil
    have hlhsε : p.lhs ≠ epsilon := Grammar.ne_of_isNonTerminal (Grammar.isNonTerminal_lhs hr) hε
    obtain ⟨n, c', hsteps, hdue', hinput⟩ := erases_of_derives_nil hend hε hclean hlhsε
      ((Grammar.Derives.of_rule hr).trans hderives) hfollow c top rest hdue hlhs.symm rfl
    exact ⟨n, c', hsteps, load_lt_of_rest hdue hinput hdue'⟩

include hend hε hclean in
/-- Every run ends by itself. -/
theorem halts (c : Config) :
    Machine.Halts (step g (Table.predictive g (compute g)) endMarker) c := by
  refine Machine.halts_of_progress Config.load fun _ c _ => ?_
  have heffect := step_effect g (Table.predictive g (compute g)) endMarker c
  generalize hmoment : step g (Table.predictive g (compute g)) endMarker c = moment at heffect
  cases heffect with
  | accept | unfinished | mismatch | noEntry | invalidEntry =>
      exact Or.inl (.of_outcome (by rw [hmoment]; rfl) (by decide))
  | matched hdue hne hterminal hcurrent =>
      refine Or.inr ⟨1, _, .single hmoment rfl, ?_⟩
      exact load_lt_of_tail rfl (input_ne_nil (hcurrent ▸ hne))
  | expanded hdue hne hlhs hcell hproduction hp =>
      obtain ⟨q, hq, hpredicted, -, rfl⟩ := Table.exists_of_get?_predictive hcell
      cases hproduction
      obtain ⟨n, c', hsteps, hlt⟩ := exists_load_lt hend hε hclean hq hpredicted hdue hp
      exact Or.inr ⟨n, c', hsteps, hlt⟩

end steps

/-- A grammar is read from a text, the empty marker is not one of its left-hand sides, and no cell
of its predictive table is overwritten. Then for all tokens there is a bound, and no run that
permits as many steps ends at the limit. -/
theorem exists_bound_parse {text : String} (hread : Grammar.read text = .ok g)
    (hε : epsilon ∉ g.nonTerminals) (hclean : (Table.predictive g (compute g)).overwrites = [])
    (tokens : List Symbol) :
    ∃ bound : Int, ∀ maxSteps, bound ≤ maxSteps →
      (parse g (Table.predictive g (compute g)) tokens ⟨maxSteps, endMarker⟩).outcome ≠
        .stepLimit := by
  have hend := Grammar.avoidsEndMarker_of_read hread
  have hε' := Grammar.not_isNonTerminal_epsilon hε
  obtain ⟨bound, hbound⟩ := (halts hend hε' hclean
    (Config.initial g.startSymbol (tokens ++ [endMarker]))).exists_bound
  exact ⟨bound, fun maxSteps h => hbound maxSteps endMarker h⟩

/-- The machine does not go on for ever where a list goes on with what has no end. -/
theorem exists_bound_parse_endless :
    (Table.predictive .endless (compute .endless)).overwrites = [] ∧
      ∃ bound : Int, ∀ maxSteps, bound ≤ maxSteps →
        (parse .endless (Table.predictive .endless (compute .endless)) ["a", "b", "x"]
          ⟨maxSteps, endMarker⟩).outcome ≠ .stepLimit := by
  have hclean : (Table.predictive .endless (compute .endless)).overwrites = [] := by
    decide +kernel
  exact ⟨hclean, exists_bound_parse Grammar.read_endless (by decide +kernel) hclean _⟩

end Predictive

end TableParsing

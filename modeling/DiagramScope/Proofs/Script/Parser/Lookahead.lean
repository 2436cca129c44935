import DiagramScope.Proofs.Script.Parser.Lines
import DiagramScope.Proofs.Script.Parser.Settling
import DiagramScope.Proofs.Script.Syntax.Viable

/-!
Reading looks one token ahead. A verdict on tokens tells how they are read, and that what was read
and the token behind it settle the outcome. Main statements: every rule of the grammar comes to a
verdict, and where it finds a token missing, the tokens up to there can be completed.
-/

set_option autoImplicit false
set_option relaxedAutoImplicit false

namespace DiagramScope.Script

open Grammar (Phrase Whole)

namespace Parser

variable {α β : Type}

/-- How a reader judges tokens, where `D` tells which tokens stand for which values. Either it reads
a value from the first of them; or some tokens that can be completed to those of a value are not
continued, and it halts in front of the others, but for a comma at the end of the first ones, which
it has not read; or there are too few levels. What stands behind the next token makes no
difference. -/
inductive Verdict (D : α → List Lexeme → Prop) (f : List Lexeme → Outcome α) (ts : List Lexeme) :
    Prop where
  | done (run rest : List Lexeme) (a : α) (level : Nat) (hts : ts = run ++ rest)
      (hcomma : pendingComma run = []) (hD : D a run)
      (hread : ∀ rest', rest'.head? = rest.head? → f (run ++ rest') = .done a ⟨rest', level⟩)
  | blocked (viable unread : List Lexeme) (expected : Expected) (level : Nat)
      (hts : ts = viable ++ unread) (hD : ∃ more a, D a (viable ++ more))
      (hread : ∀ unread', unread'.head? = unread.head? →
        f (viable ++ unread') =
          .halted (.missing expected) ⟨pendingComma viable ++ unread', level⟩)
  | nesting (c : Cursor) (hread : f ts = .halted .nesting c)

/-- How a reader judges tokens that need not concern it: it may also refuse the first token. If it
takes that token, which is not a comma, the others get a verdict. -/
inductive Attempt (D : α → List Lexeme → Prop) (f : List Lexeme → Outcome α) (ts : List Lexeme) :
    Prop where
  | refused (expected : Expected) (level : Nat) (hD : ∃ more a, D a more)
      (hread : ∀ ts', ts'.head? = ts.head? → f ts' = .refused (.missing expected) ⟨ts', level⟩)
  | taken (l : Lexeme) (rest : List Lexeme) (hts : ts = l :: rest) (hl : l.token.isComma = false)
      (h : Verdict (fun a run => D a (l :: run)) (fun rest => f (l :: rest)) rest)
  | nesting (c : Cursor) (hread : f ts = .halted .nesting c)

section Combinators

variable {D : α → List Lexeme → Prop} {D' : β → List Lexeme → Prop} {f g : List Lexeme → Outcome α}
  {ts rest : List Lexeme}

private theorem head?_append {γ : Type} (run : List γ) {rest rest' : List γ}
    (h : rest'.head? = rest.head?) : (run ++ rest').head? = (run ++ rest).head? := by
  cases run with
  | nil => exact h
  | cons l run => rfl

theorem Next.congr {P : Token → Prop} {rest' : List Lexeme} (h : Next P rest)
    (hhead : rest'.head? = rest.head?) : Next P rest' := by
  rintro l more rfl
  obtain ⟨more', hmore⟩ := List.head?_eq_some_iff.1 hhead.symm
  exact h l more' hmore

namespace Verdict

private theorem pure {a : α} {level : Nat} (hD : D a []) :
    Verdict D (fun ts => .done a ⟨ts, level⟩) ts :=
  .done [] ts a level rfl rfl hD fun _ _ => rfl

theorem mono {D₁ : α → List Lexeme → Prop} (h : Verdict D f ts)
    (hD : ∀ a run, D a run → D₁ a run) : Verdict D₁ f ts := by
  cases h with
  | done run rest a level hts hcomma hrun hread =>
    exact .done run rest a level hts hcomma (hD a run hrun) hread
  | blocked viable unread expected level hts hcomplete hread =>
    obtain ⟨more, a, hmore⟩ := hcomplete
    exact .blocked viable unread expected level hts ⟨more, a, hD a _ hmore⟩ hread
  | nesting c hread => exact .nesting c hread

/-- Readers that agree on the next token come to the same verdict. -/
theorem look (hg : Verdict D g ts) (hf : ∀ ts', ts'.head? = ts.head? → f ts' = g ts') :
    Verdict D f ts := by
  cases hg with
  | done run rest a level hts hcomma hD hread =>
    refine .done run rest a level hts hcomma hD fun rest' hrest => ?_
    rw [hf _ (hts ▸ head?_append run hrest), hread rest' hrest]
  | blocked viable unread expected level hts hD hread =>
    refine .blocked viable unread expected level hts hD fun unread' hunread => ?_
    rw [hf _ (hts ▸ head?_append viable hunread), hread unread' hunread]
  | nesting c hread => exact .nesting c ((hf ts rfl).trans hread)

theorem behind {front : List Lexeme} (hfront : pendingComma front = [])
    (h : Verdict (fun a run => D a (front ++ run)) (fun rest => f (front ++ rest)) rest) :
    Verdict D f (front ++ rest) := by
  cases h with
  | done run rest' a level hts hcomma hD hread =>
    refine .done (front ++ run) rest' a level (by rw [hts, List.append_assoc])
      (by rw [pendingComma_append hfront, hcomma]) hD fun rest'' hrest => ?_
    rw [List.append_assoc]
    exact hread rest'' hrest
  | blocked viable unread expected level hts hD hread =>
    refine .blocked (front ++ viable) unread expected level (by rw [hts, List.append_assoc]) ?_
      fun unread' hunread => ?_
    · obtain ⟨more, a, hmore⟩ := hD
      exact ⟨more, a, by rwa [List.append_assoc]⟩
    · rw [List.append_assoc, pendingComma_append hfront]
      exact hread unread' hunread
  | nesting c hread => exact .nesting c hread

/-- Reading goes on behind a value. Refusals do not get this far, so it does not matter what is made
of them. -/
theorem bind {g : α → Cursor → Outcome β} {f' : List Lexeme → Outcome β} (hf : Verdict D f ts)
    (hbind : ∀ ts, (∀ cause c, f ts ≠ .refused cause c) → f' ts = (f ts).bind g)
    (hcomplete : ∀ a run, D a run → ∃ more b, D' b (run ++ more))
    (hg : ∀ a run rest level, ts = run ++ rest → f ts = .done a ⟨rest, level⟩ → D a run →
      Verdict (fun b run' => D' b (run ++ run')) (fun ts => g a ⟨ts, level⟩) rest) :
    Verdict D' f' ts := by
  cases hf with
  | done run rest a level hts hcomma hD hread =>
    subst hts
    have hsame (rest' : List Lexeme) (hrest : rest'.head? = rest.head?) :
        f' (run ++ rest') = g a ⟨rest', level⟩ := by
      rw [hbind _ (by simp [hread rest' hrest]), hread rest' hrest]
      rfl
    cases hg a run rest level rfl (hread rest rfl) hD with
    | done run' rest₁ b level₁ hts hcomma' hD' hread' =>
      subst hts
      refine .done (run ++ run') rest₁ b level₁ (List.append_assoc _ _ _).symm
        ((pendingComma_append hcomma run').trans hcomma') hD' fun rest' hrest => ?_
      rw [List.append_assoc, hsame _ (head?_append run' hrest)]
      exact hread' rest' hrest
    | blocked viable unread expected level₁ hts hD' hread' =>
      subst hts
      refine .blocked (run ++ viable) unread expected level₁ (List.append_assoc _ _ _).symm ?_
        fun unread' hunread => ?_
      · obtain ⟨more, b, hmore⟩ := hD'
        exact ⟨more, b, by rwa [List.append_assoc]⟩
      · rw [List.append_assoc, hsame _ (head?_append viable hunread), pendingComma_append hcomma]
        exact hread' unread' hunread
    | nesting c hread' => exact .nesting c ((hsame rest rfl).trans hread')
  | blocked viable unread expected level hts hD hread =>
    refine .blocked viable unread expected level hts ?_ fun unread' hunread => ?_
    · obtain ⟨more, a, hmore⟩ := hD
      obtain ⟨more', b, hmore'⟩ := hcomplete a _ hmore
      exact ⟨more ++ more', b, by rwa [← List.append_assoc]⟩
    · rw [hbind _ (by simp [hread unread' hunread]), hread unread' hunread]
      rfl
  | nesting c hread =>
    refine .nesting c ?_
    rw [hbind _ (by simp [hread]), hread]
    rfl

theorem map (h : Verdict D f ts) (u : α → β) (hD : ∀ a run, D a run → D' (u a) run) :
    Verdict D' (fun ts => (f ts).map u) ts := by
  refine h.bind (fun _ _ => rfl) (fun a run ha => ⟨[], u a, ?_⟩) fun a run rest level _ _ ha => ?_
  · rw [List.append_nil]
    exact hD a run ha
  · refine .pure ?_
    rw [List.append_nil]
    exact hD a run ha

private theorem after {u : Outcome α → Outcome α} {v : Nat → Nat} (h : Verdict D f ts)
    (hdone : ∀ a rest level, u (.done a ⟨rest, level⟩) = .done a ⟨rest, v level⟩)
    (hhalted : ∀ cause rest level,
      u (.halted cause ⟨rest, level⟩) = .halted cause ⟨rest, v level⟩) :
    Verdict D (fun ts => u (f ts)) ts := by
  cases h with
  | done run rest a level hts hcomma hD hread =>
    refine .done run rest a (v level) hts hcomma hD fun rest' hrest => ?_
    rw [hread rest' hrest, hdone]
  | blocked viable unread expected level hts hD hread =>
    refine .blocked viable unread expected (v level) hts hD fun unread' hunread => ?_
    rw [hread unread' hunread, hhalted]
  | nesting c hread => exact .nesting _ ((congrArg u hread).trans (hhalted .nesting c.rest c.level))

private theorem relevel (h : Verdict D f ts) (v : Nat → Nat) :
    Verdict D (fun ts => (f ts).relevel v) ts :=
  h.after (v := v) (fun _ _ _ => rfl) fun _ _ _ => rfl

private theorem commit (h : Verdict D f ts) : Verdict D (fun ts => (f ts).commit) ts :=
  h.after (v := id) (fun _ _ _ => rfl) fun _ _ _ => rfl

end Verdict

namespace Attempt

theorem commit (h : Attempt D f ts) : Verdict D (fun ts => (f ts).commit) ts := by
  cases h with
  | refused expected level hD hread =>
    exact .blocked [] ts expected level rfl hD fun ts' hts =>
      congrArg Outcome.commit (hread ts' hts)
  | taken l rest hts hl h =>
    subst hts
    have hfront : pendingComma [l] = [] := pendingComma_singleton hl
    exact .behind hfront h.commit
  | nesting c hread => exact .nesting c (congrArg Outcome.commit hread)

theorem look (hg : Attempt D g ts) (hf : ∀ ts', ts'.head? = ts.head? → f ts' = g ts') :
    Attempt D f ts := by
  cases hg with
  | refused expected level hD hread =>
    exact .refused expected level hD fun ts' hts => (hf ts' hts).trans (hread ts' hts)
  | taken l rest hts hl h =>
    subst hts
    exact .taken l rest rfl hl (h.look fun rest' _ => hf (l :: rest') rfl)
  | nesting c hread => exact .nesting c ((hf ts rfl).trans hread)

private theorem bind {g : α → Cursor → Outcome β} (hf : Attempt D f ts)
    (hcomplete : ∀ a run, D a run → ∃ more b, D' b (run ++ more))
    (hg : ∀ a run rest level, ts = run ++ rest → f ts = .done a ⟨rest, level⟩ → D a run →
      Verdict (fun b run' => D' b (run ++ run')) (fun ts => g a ⟨ts, level⟩) rest) :
    Attempt D' (fun ts => (f ts).bind g) ts := by
  cases hf with
  | refused expected level hD hread =>
    obtain ⟨run, a, hrun⟩ := hD
    obtain ⟨more, b, hmore⟩ := hcomplete a run hrun
    exact .refused expected level ⟨run ++ more, b, hmore⟩ fun ts' hts => by rw [hread ts' hts]; rfl
  | taken l rest hts hl h =>
    subst hts
    exact .taken l rest rfl hl (h.bind (fun _ _ => rfl) (fun a run => hcomplete a (l :: run))
      fun a run rest' level hts => hg a (l :: run) rest' level (congrArg (l :: ·) hts))
  | nesting c hread => exact .nesting c (by rw [hread]; rfl)

theorem map (h : Attempt D f ts) (u : α → β) (hD : ∀ a run, D a run → D' (u a) run) :
    Attempt D' (fun ts => (f ts).map u) ts := by
  refine h.bind (fun a run ha => ⟨[], u a, ?_⟩) fun a run rest level _ _ ha => ?_
  · rw [List.append_nil]
    exact hD a run ha
  · refine .pure ?_
    rw [List.append_nil]
    exact hD a run ha

private theorem relevel (h : Attempt D f ts) (u : Nat → Nat) :
    Attempt D (fun ts => (f ts).relevel u) ts := by
  cases h with
  | refused expected level hD hread =>
    exact .refused expected (u level) hD fun ts' hts =>
      congrArg (Outcome.relevel u) (hread ts' hts)
  | taken l rest hts hl h => exact .taken l rest hts hl (h.relevel u)
  | nesting c hread => exact .nesting _ (congrArg (Outcome.relevel u) hread)

private theorem mono {D₁ : α → List Lexeme → Prop} (h : Attempt D f ts)
    (hD : ∀ a run, D a run → D₁ a run) : Attempt D₁ f ts := by
  cases h with
  | refused expected level hcomplete hread =>
    obtain ⟨more, a, hmore⟩ := hcomplete
    exact .refused expected level ⟨more, a, hD a more hmore⟩ hread
  | taken l rest hts hl h => exact .taken l rest hts hl (h.mono fun a run => hD a (l :: run))
  | nesting c hread => exact .nesting c hread

end Attempt

end Combinators

def Explained (φ : Expr → Phrase) (p : Parser Expr) : Prop :=
  ∀ ts level, Attempt (Whole φ) (fun ts => p ⟨ts, level⟩) ts

section Symbols

theorem next_ne_or (s : Symbol) (ts : List Lexeme) :
    Next (· ≠ .symbol s) ts ∨ ∃ span rest, ts = ⟨.symbol s, span⟩ :: rest := by
  cases ts with
  | nil => exact .inl nofun
  | cons l rest =>
    obtain ⟨token, span⟩ := l
    by_cases hs : token = .symbol s
    · exact .inr ⟨span, rest, by rw [hs]⟩
    · exact .inl (.cons hs rest)

private theorem expectSymbol_of_ne {s : Symbol} {ts : List Lexeme} (h : Next (· ≠ .symbol s) ts)
    (expected : Expected) (level : Nat) :
    expectSymbol s expected ⟨ts, level⟩ = .refused (.missing expected) ⟨ts, level⟩ := by
  change (acceptSymbol s _).bind _ = _
  rw [acceptSymbol_of_ne h]
  rfl

private theorem verdict_expectSymbol {s : Symbol} (hs : (Token.symbol s).isComma = false)
    (expected : Expected) (ts : List Lexeme) (level : Nat) :
    Verdict (fun span run => run = [⟨.symbol s, span⟩])
      (fun ts => (expectSymbol s expected ⟨ts, level⟩).commit) ts := by
  rcases next_ne_or s ts with hne | ⟨span, rest, rfl⟩
  · refine .blocked [] ts expected level rfl ⟨_, .atOffset 0, rfl⟩ fun ts' hts => ?_
    rw [List.nil_append, expectSymbol_of_ne (hne.congr hts)]
    rfl
  · refine .done [_] rest span level rfl (pendingComma_singleton hs) rfl fun rest' _ => ?_
    rw [List.singleton_append, expectSymbol_self]
    rfl

end Symbols

private theorem Explained.nested {φ : Expr → Phrase} {p : Parser Expr} (h : Explained φ p) :
    Explained φ (nested p) := by
  intro ts level
  by_cases hroom : maxNesting ≤ level
  · exact .nesting ⟨ts, level⟩ (by rw [nested_apply, if_pos hroom])
  · exact ((h ts (level + 1)).relevel (· - 1)).look fun ts' _ => by rw [nested_apply, if_neg hroom]

section Chain

variable {k : Grammar.Chain} {operand : Parser Expr}

private theorem isComma_of_operator? {t : Token} {operator : Operator}
    (h : k.operator? t = some operator) : t.isComma = false := by
  cases t with
  | symbol s => cases k <;> cases s <;> first | rfl | cases h
  | _ => rfl

def links (operator? : Token → Option Operator) (operand : Parser Expr) (left : Expr) :
    Parser Expr := fun c => chainFrom operator? operand c.rest.length left c

private theorem links_cons (ho : Orderly operand) (left : Expr) {l : Lexeme} {operator : Operator}
    (hl : k.operator? l.token = some operator) {level : Nat} (hroom : level < maxNesting)
    (rest : List Lexeme) :
    links k.operator? operand left ⟨l :: rest, level⟩ =
      (operand ⟨rest, level + 1⟩).commit.bind fun right =>
        links k.operator? operand (.joined operator left right) := by
  unfold links
  rw [List.length_cons, chainFrom_succ]
  simp only [hl, if_neg (Nat.not_le.2 hroom)]
  refine Outcome.bind_congr fun right c hright => ?_
  have hle : c.rest.length ≤ rest.length := ho.length_le (Outcome.commit_eq_done_iff.1 hright)
  exact chainFrom_eq_of_le ho hle (Nat.le_refl _)

private theorem verdict_links (ho : Orderly operand) (h : Explained k.operand operand) (left : Expr)
    (ts : List Lexeme) (level : Nat) :
    Verdict (Whole (.links k left)) (fun ts => links k.operator? operand left ⟨ts, level⟩) ts := by
  -- By induction on the number of tokens: every operator takes one.
  induction hn : ts.length using Nat.strongRecOn generalizing left ts level with
  | ind n ih =>
    have hend {ts : List Lexeme} (hts : Next (k.operator? · = none) ts) :
        Verdict (Whole (.links k left)) (fun ts => links k.operator? operand left ⟨ts, level⟩)
          ts := by
      have hpure : Verdict (Whole (.links k left)) (fun ts => .done left ⟨ts, level⟩) ts :=
        .pure (Grammar.whole_noLink k left)
      exact hpure.look fun ts' hts' => chainFrom_of_not_operator (hts.congr hts')
    cases ts with
    | nil => exact hend nofun
    | cons l rest =>
      cases hl : k.operator? l.token with
      | none => exact hend (.cons hl rest)
      | some operator =>
        by_cases hroom : maxNesting ≤ level
        · refine .nesting ⟨rest, level⟩ ?_
          simp only [links, List.length_cons, chainFrom_succ, hl, if_pos hroom]
        · have hfront : pendingComma [l] = [] := pendingComma_singleton (isComma_of_operator? hl)
          refine .behind hfront ((h rest (level + 1)).commit.bind
            (fun ts _ => links_cons ho left hl (Nat.lt_of_not_le hroom) ts)
            (fun right run hright => ?_) fun right run rest' level' hrest _ hright => ?_)
          · have hwhole : Whole (.links k left) (.joined operator left right) (l :: run ++ []) :=
              hright.link hl (Grammar.whole_noLink k _)
            exact ⟨[], _, hwhole⟩
          · have hshorter : rest'.length < n := by
              rw [← hn, hrest, List.length_cons, List.length_append]
              omega
            have hlinks := ih _ hshorter (.joined operator left right) rest' level' rfl
            exact hlinks.mono fun e run' => hright.link hl

private theorem Explained.chain (h : Explained k.operand operand) (ho : Orderly operand) :
    Explained (.chain k) (chain k.operator? operand) := by
  intro ts level
  refine (h ts level).bind (fun first run hfirst => ?_) fun first run rest level' _ _ hfirst => ?_
  · exact ⟨[], first, hfirst.chain (Grammar.whole_noLink k first)⟩
  · have hwhole (e : Expr) (more : List Lexeme) (he : Whole (.links k first) e more) :
        Whole (.chain k) e (run ++ (more ++ [])) := by
      rw [List.append_nil]
      exact hfirst.chain he
    exact (verdict_links ho h first rest level').bind (g := fun e c => .done e ⟨c.rest, level'⟩)
      (fun _ _ => rfl) (fun e more he => ⟨[], e, hwhole e more he⟩)
      fun e more _ _ _ _ he => .pure (hwhole e more he)

end Chain

section Items

def Closed (φ : List Expr → Phrase) (close : Symbol) (found : List Expr × Span)
    (ts : List Lexeme) : Prop :=
  ∃ run, Whole φ found.1 run ∧ ts = run ++ [⟨.symbol close, found.2⟩]

/-- Reads the items behind the first and the closing symbol, with no other way to go on. -/
def furtherItems (item : Parser Expr) (close : Symbol) (expected : Expected) :
    Parser (List Expr × Span) := fun c =>
  ((moreItems item c.rest.length c).bind fun es c =>
    (expectSymbol close expected c).bind fun span c => .done (es, span) c).commit

def withItem (e : Expr) (found : List Expr × Span) : List Expr × Span := (e :: found.1, found.2)

section Closed

variable {close : Symbol} {e : Expr} {found : List Expr × Span} {run rest : List Lexeme}

private theorem closed_noMore (close : Symbol) (span : Span) :
    Closed .moreItems close ([], span) [⟨.symbol close, span⟩] :=
  ⟨[], ⟨0, .noMore []⟩, rfl⟩

private theorem Closed.more (hmore : Closed .moreItems close found rest) (comma : Span)
    (he : Whole (.chain .sum) e run) :
    Closed .moreItems close (withItem e found) (⟨.symbol .comma, comma⟩ :: (run ++ rest)) := by
  obtain ⟨others, hothers, rfl⟩ := hmore
  refine ⟨⟨.symbol .comma, comma⟩ :: run ++ others, he.more comma hothers, ?_⟩
  rw [withItem, List.append_assoc, List.cons_append]

private theorem Closed.items (hmore : Closed .moreItems close found rest)
    (he : Whole (.chain .sum) e run) : Closed .items close (withItem e found) (run ++ rest) := by
  obtain ⟨others, hothers, rfl⟩ := hmore
  exact ⟨run ++ others, he.items hothers, (List.append_assoc _ _ _).symm⟩

end Closed

variable {item : Parser Expr} {close : Symbol} {ts : List Lexeme}

private theorem furtherItems_of_not_comma (hts : Next (· ≠ .symbol .comma) ts) (expected : Expected)
    (level : Nat) :
    furtherItems item close expected ⟨ts, level⟩ =
      (expectSymbol close expected ⟨ts, level⟩).commit.map fun span => ([], span) := by
  unfold furtherItems
  rw [moreItems_of_not_comma hts]
  change ((expectSymbol close expected ⟨ts, level⟩).bind _).commit = _
  cases expectSymbol close expected ⟨ts, level⟩ <;> rfl

/-- Where no item follows a comma, the comma is what does not close the items. -/
theorem furtherItems_comma (ho : Orderly item) (hclose : close ≠ .comma) (expected : Expected)
    (comma : Span) (ts : List Lexeme) (level : Nat) :
    furtherItems item close expected ⟨⟨.symbol .comma, comma⟩ :: ts, level⟩ =
      match item ⟨ts, level⟩ with
      | .done e c => (furtherItems item close expected c).map (withItem e)
      | .refused _ c => .halted (.missing expected) ⟨⟨.symbol .comma, comma⟩ :: ts, c.level⟩
      | .halted cause c => .halted cause c := by
  unfold furtherItems
  simp only [List.length_cons, moreItems, acceptSymbol_self]
  cases hitem : item ⟨ts, level⟩ with
  | halted cause c => rfl
  | refused cause c =>
    have hne : Next (· ≠ .symbol close) (⟨.symbol .comma, comma⟩ :: ts) :=
      .cons (fun heq => hclose (Token.symbol.inj heq).symm) ts
    change ((expectSymbol close expected _).bind _).commit = _
    rw [expectSymbol_of_ne hne]
    rfl
  | done e c =>
    have hbound : c.rest.length ≤ ts.length := ho.length_le hitem
    have hmore : moreItems item ts.length c = moreItems item c.rest.length c :=
      moreItems_eq_of_le ho hbound (Nat.le_refl _)
    simp only [hmore]
    cases moreItems item c.rest.length c with
    | done es c' =>
      change ((expectSymbol close expected c').bind _).commit =
        (((expectSymbol close expected c').bind _).commit).map _
      cases expectSymbol close expected c' <;> rfl
    | refused cause c' => rfl
    | halted cause c' => rfl

private theorem verdict_furtherItems (ho : Orderly item) (h : Explained (.chain .sum) item)
    (hclose : (Token.symbol close).isComma = false) (expected : Expected) (ts : List Lexeme)
    (level : Nat) :
    Verdict (Closed .moreItems close) (fun ts => furtherItems item close expected ⟨ts, level⟩)
      ts := by
  have hcomma : close ≠ .comma := by
    rintro rfl
    cases hclose
  -- By induction on the number of tokens: every further item has a comma.
  induction hn : ts.length using Nat.strongRecOn generalizing ts level with
  | ind n ih =>
    have hnone := closed_noMore close (.atOffset 0)
    rcases next_ne_or .comma ts with hts | ⟨comma, rest, rfl⟩
    · have hclosed (span : Span) (run : List Lexeme) (hrun : run = [⟨.symbol close, span⟩]) :
          Closed .moreItems close ([], span) run := hrun ▸ closed_noMore close span
      have hend := (verdict_expectSymbol hclose expected ts level).map _ hclosed
      exact hend.look fun ts' hts' => furtherItems_of_not_comma (hts.congr hts') expected level
    · have hstep (ts : List Lexeme) := furtherItems_comma ho hcomma expected comma ts level
      cases h rest level with
      | refused expected' level' _ hread =>
        have hnumber := hnone.more comma (Grammar.whole_expression (.atOffset 0))
        refine .blocked [⟨.symbol .comma, comma⟩] rest expected level' rfl ⟨_, _, hnumber⟩
          fun unread' hunread => ?_
        rw [List.singleton_append, hstep, hread unread' hunread]
        rfl
      | nesting c hread =>
        refine .nesting c ?_
        rw [hstep, hread]
      | taken l rest' hrest hl hverdict =>
        subst hrest
        have hfront : pendingComma [⟨.symbol .comma, comma⟩, l] = [] := by
          have hlast := pendingComma_append_singleton [⟨.symbol .comma, comma⟩] l
          rwa [hl] at hlast
        refine .behind hfront (hverdict.bind
          (g := fun e c => (furtherItems item close expected c).map (withItem e))
          (fun ts hts => ?_) (fun e run he => ?_) fun e run rest level' hrest _ he => ?_)
        · rw [List.cons_append, List.singleton_append, hstep]
          cases hitem : item ⟨l :: ts, level⟩ with
          | done e c => rfl
          | refused cause c => exact absurd hitem (hts cause c)
          | halted cause c => rfl
        · exact ⟨_, _, hnone.more comma he⟩
        · have hshorter : rest.length < n := by
            rw [← hn, hrest, List.length_cons, List.length_cons, List.length_append]
            omega
          exact (ih _ hshorter rest level' rfl).map (withItem e) fun found more hmore =>
            hmore.more comma he

private theorem items_commit (hts : Next (· ≠ .symbol close) ts) (expected : Expected)
    (level : Nat) : (items item close expected ⟨ts, level⟩).commit =
      (item ⟨ts, level⟩).commit.bind fun e c =>
        (furtherItems item close expected c).map (withItem e) := by
  rw [items_of_not_closed (acceptSymbol_of_ne hts level)]
  cases item ⟨ts, level⟩ with
  | refused cause c => rfl
  | halted cause c => rfl
  | done e c =>
    change ((moreItems item c.rest.length c).bind _).commit =
      (((moreItems item c.rest.length c).bind _).commit).map _
    cases moreItems item c.rest.length c with
    | refused cause c' => rfl
    | halted cause c' => rfl
    | done es c' =>
      change ((expectSymbol close expected c').bind _).commit =
        (((expectSymbol close expected c').bind _).commit).map _
      cases expectSymbol close expected c' <;> rfl

variable (close) in
private theorem verdict_items (ho : Orderly item) (h : Explained (.chain .sum) item)
    (hclose : (Token.symbol close).isComma = false) (expected : Expected) (ts : List Lexeme)
    (level : Nat) :
    Verdict (Closed .items close)
      (fun ts => (items item close expected ⟨ts, level⟩).commit) ts := by
  rcases next_ne_or close ts with hts | ⟨span, rest, rfl⟩
  · refine Verdict.look ((h ts level).commit.bind (fun _ _ => rfl) (fun e run he => ?_)
      fun e run rest level' _ _ he => ?_) fun ts' hts' =>
        items_commit (hts.congr hts') expected level
    · exact ⟨_, _, (closed_noMore close (.atOffset 0)).items he⟩
    · exact (verdict_furtherItems ho h hclose expected rest level').map (withItem e)
        fun found more hmore => hmore.items he
  · refine .done [_] rest ([], span) level rfl (pendingComma_singleton hclose)
      ⟨[], ⟨0, .noItems []⟩, rfl⟩ fun rest' _ => ?_
    rw [List.singleton_append, items_nil]
    rfl

end Items

section Grammar

variable {unary : Parser Expr}

theorem Explained.expression (hu : Explained .unary unary) (ho : Orderly unary) :
    Explained (.chain .sum) (expression unary) := by
  have hproduct : Explained (.chain .product) (product unary) :=
    Explained.chain (k := .product) hu ho
  exact Explained.chain (k := .sum) hproduct ho.chain

section Primary

variable (hu : Explained .unary unary) (ho : Orderly unary) (rest : List Lexeme) (level : Nat)
include hu ho

private theorem verdict_callOrVariable (name : String) (nameSpan : Span) :
    Verdict (fun e run => Whole .primary e (⟨.name name, nameSpan⟩ :: run))
      (fun rest => primary unary ⟨⟨.name name, nameSpan⟩ :: rest, level⟩) rest := by
  rcases next_ne_or .leftParen rest with hrest | ⟨opening, rest, rfl⟩
  · refine .done [] rest (.reference name nameSpan) level rfl rfl ⟨0, .reference name nameSpan []⟩
      fun rest' hrest' => ?_
    rw [List.nil_append, primary_name, acceptSymbol_of_ne (hrest.congr hrest')]
    rfl
  · have hitems := verdict_items .rightParen ho.expression (hu.expression ho) rfl .closeParen rest
      level
    have hfront : pendingComma [⟨.symbol .leftParen, opening⟩] = [] := pendingComma_singleton rfl
    refine .behind hfront ((hitems.map
      (fun found => .call name nameSpan found.1 (nameSpan.union found.2)) ?_).look fun ts' _ => ?_)
    · rintro ⟨es, close⟩ - ⟨run, hes, rfl⟩
      exact hes.call name nameSpan opening close
    · rw [List.singleton_append, primary_name, acceptSymbol_self]
      rfl

private theorem verdict_vector (opening : Span) :
    Verdict (fun e run => Whole .primary e (⟨.symbol .leftBracket, opening⟩ :: run))
      (fun rest => vector unary opening ⟨rest, level⟩) rest := by
  have hitems := verdict_items .rightBracket ho.expression (hu.expression ho) rfl .closeBracket
    rest level
  refine (hitems.map (fun found => Expr.vector found.1 (opening.union found.2)) ?_).look
    fun _ _ => rfl
  rintro ⟨es, close⟩ - ⟨run, hes, rfl⟩
  exact hes.vector opening close

private theorem verdict_parenthesized (opening : Span) :
    Verdict (fun e run => Whole .primary e (⟨.symbol .leftParen, opening⟩ :: run))
      (fun rest => parenthesized unary opening ⟨rest, level⟩) rest := by
  refine (hu.expression ho rest level).commit.bind (fun _ _ => rfl) (fun e run he => ?_)
    fun e run rest level' _ _ he => ?_
  · exact ⟨_, _, he.group opening (.atOffset 0)⟩
  · refine (verdict_expectSymbol rfl .closeParen rest level').map
      (fun close => e.withSpan (opening.union close)) ?_
    rintro close - rfl
    exact he.group opening close

private theorem Explained.primary : Explained .primary (primary unary) := by
  intro ts level
  have hnumber : ∃ more e, Whole .primary e more := ⟨_, _, Grammar.whole_number (.atOffset 0)⟩
  cases ts with
  | nil =>
    refine .refused .expression level hnumber fun ts' hts => ?_
    rw [List.head?_eq_none_iff.1 hts]
    rfl
  | cons l rest =>
    obtain ⟨token, span⟩ := l
    have hrefused (h : ∀ rest', Parser.primary unary ⟨⟨token, span⟩ :: rest', level⟩ =
        .refused (.missing .expression) ⟨⟨token, span⟩ :: rest', level⟩) :
        Attempt (Whole .primary) (fun ts => Parser.primary unary ⟨ts, level⟩)
          (⟨token, span⟩ :: rest) := by
      refine .refused .expression level hnumber fun ts' hts => ?_
      obtain ⟨rest', rfl⟩ := List.head?_eq_some_iff.1 hts
      exact h rest'
    cases token with
    | number value => exact .taken _ rest rfl rfl (.pure ⟨0, .number value span []⟩)
    | text content => exact .taken _ rest rfl rfl (.pure ⟨0, .text content span []⟩)
    | name name => exact .taken _ rest rfl rfl (verdict_callOrVariable hu ho rest level name span)
    | symbol s =>
      cases s with
      | leftParen => exact .taken _ rest rfl rfl (verdict_parenthesized hu ho rest level span)
      | leftBracket => exact .taken _ rest rfl rfl (verdict_vector hu ho rest level span)
      | _ => exact hrefused fun _ => rfl
    | _ => exact hrefused fun _ => rfl

end Primary

private theorem Explained.power (hu : Explained .unary unary) (ho : Orderly unary) :
    Explained .power (power unary) := by
  intro ts level
  have hbare {base : Expr} {run : List Lexeme} (hbase : Whole .primary base run) :
      Whole .power base (run ++ []) := by
    rw [List.append_nil]
    exact hbase.base
  refine (hu.primary ho ts level).bind (fun base run hbase => ⟨[], base, hbare hbase⟩)
    fun base run rest level' _ _ hbase => ?_
  rcases next_ne_or .caret rest with hrest | ⟨caret, rest, rfl⟩
  · refine .done [] rest base level' rfl rfl (hbare hbase) fun rest' hrest' => ?_
    change (acceptSymbol .caret ⟨rest', level'⟩).bind _ = _
    rw [acceptSymbol_of_ne (hrest.congr hrest')]
    rfl
  · have hfront : pendingComma [⟨.symbol .caret, caret⟩] = [] := pendingComma_singleton rfl
    refine .behind hfront (((hu rest level').commit.map (Expr.joined .power base) ?_).look
      fun ts' _ => ?_)
    · exact fun exponent more hmore => hbase.raised caret hmore
    · change (acceptSymbol .caret ⟨⟨.symbol .caret, caret⟩ :: ts', level'⟩).bind _ = _
      rw [acceptSymbol_self]
      rfl

private theorem signed_of_unsigned {ts : List Lexeme} (h : Next (sign? · = none) ts) (level : Nat) :
    signed unary ⟨ts, level⟩ = power unary ⟨ts, level⟩ := by
  cases ts with
  | nil => rfl
  | cons l rest =>
    change (accept sign? ⟨l :: rest, level⟩).bind _ = _
    rw [accept_of_eq_none (h l rest rfl)]
    rfl

private theorem Explained.signed (hu : Explained .unary unary) (ho : Orderly unary) :
    Explained .unary (signed unary) := by
  intro ts level
  have hunsigned {ts : List Lexeme} (hts : Next (sign? · = none) ts) :
      Attempt (Whole .unary) (fun ts => Parser.signed unary ⟨ts, level⟩) ts :=
    ((hu.power ho ts level).mono fun _ _ => Whole.unsigned).look fun _ hts' =>
      signed_of_unsigned (hts.congr hts') level
  cases ts with
  | nil => exact hunsigned nofun
  | cons l rest =>
    cases hl : sign? l.token with
    | none => exact hunsigned (.cons hl rest)
    | some sign =>
      have hstarts := Token.isComma_of_starts (Grammar.starts_of_sign hl)
      refine .taken l rest rfl hstarts (((hu rest level).commit.map
        (fun e => Expr.signed sign e (l.span.union e.span)) ?_).look fun rest' _ => ?_)
      · exact fun e run he => he.sign hl
      · change (accept sign? ⟨l :: rest', level⟩).bind _ = _
        rw [accept_of_eq_some hl]
        rfl

end Grammar

private theorem explained_unaryWithin (budget : Nat) : Explained .unary (unaryWithin budget) := by
  induction budget with
  | zero => exact fun ts level => .nesting ⟨ts, level⟩ rfl
  | succ budget ih => exact (ih.signed (orderly_unaryWithin budget)).nested

theorem explained_unary : Explained .unary unary :=
  fun ts level => explained_unaryWithin (maxNesting - level) ts level

end Parser

end DiagramScope.Script

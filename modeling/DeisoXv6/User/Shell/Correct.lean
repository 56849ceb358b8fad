import DeisoXv6.User.Shell.Text

/-! The parser of sh.c accepts the commands of its grammar and no others: what it returns is derived, and what is
derived is returned. -/

set_option autoImplicit false

namespace DeisoXv6.Shell

open List Category

def Settles {α : Type} (result : Parse α) (good : α → Prop) : Prop :=
  (∃ a, result = .ok a ∧ good a) ∨ ∃ p, result = .error (.panic p)

namespace Settles

variable {α β : Type} {result : Parse α} {good : α → Prop} {good' : β → Prop}

theorem bind {next : α → Parse β} (first : Settles result good) (rest : ∀ a, good a → Settles (next a) good') :
    Settles (result >>= next) good' := by
  rcases first with ⟨a, ok, holds⟩ | ⟨p, panics⟩
  · rw [ok]
    exact rest a holds
  · rw [panics]
    exact .inr ⟨p, rfl⟩

theorem map {f : α → β} (first : Settles result good) (rest : ∀ a, good a → good' (f a)) :
    Settles (result.map f) good' := by
  rcases first with ⟨a, ok, holds⟩ | ⟨p, panics⟩
  · rw [ok]
    exact .inl ⟨f a, rfl, rest a holds⟩
  · rw [panics]
    exact .inr ⟨p, rfl⟩

end Settles

variable {ps : Cursor} {fuel fuel' : Nat} {ret : List Redir} {argv : List Word} {cmd : Cmd} {ts rest : List Token}

theorem parseredirs_sound (enough : (tokens ps).length < fuel) : Settles (parseredirs fuel ret ps) fun (ret', ps') =>
    ∃ rs : List Redirection, ret' = ret ++ rs.map Redirection.redir ∧
      tokens ps = rs.flatMap Redirection.tokens ++ tokens ps' := by
  induction fuel generalizing ret ps with
  | zero => exact absurd enough (Nat.not_lt_zero _)
  | succ fuel ih =>
    by_cases arrow : ∃ a ts, tokens ps = .arrow a :: ts
    · obtain ⟨a, ts, first⟩ := arrow
      by_cases word : ∃ file ts', ts = .word file :: ts'
      · obtain ⟨file, ts, rfl⟩ := word
        obtain ⟨ps₁, remain, turn⟩ := parseredirs_arrow fuel ret first
        have shorter : (tokens ps₁).length < fuel := by
          rw [first] at enough
          rw [remain]
          simp only [length_cons] at enough
          omega
        rw [turn]
        rcases ih shorter with ⟨⟨ret', ps'⟩, ok, rs, redirs, split⟩ | panics
        · refine .inl ⟨_, ok, ⟨a, file⟩ :: rs, ?_, ?_⟩
          · rw [redirs, append_assoc]
            rfl
          · rw [first, ← remain, split]
            rfl
        · exact .inr panics
      · exact .inr ⟨_, parseredirs_missing first fun file ts' eq => word ⟨file, ts', eq⟩⟩
    · obtain ⟨ps', same, done⟩ := parseredirs_done fuel ret fun a ts first => arrow ⟨a, ts, first⟩
      exact .inl ⟨_, done, [], (append_nil _).symm, same.symm⟩

theorem parseback_sound (enough : (tokens ps).length < fuel) :
    ∃ k ps', parseback fuel cmd ps = .ok (backs k cmd, ps') ∧ tokens ps = List.replicate k .amp ++ tokens ps' := by
  induction fuel generalizing cmd ps with
  | zero => exact absurd enough (Nat.not_lt_zero _)
  | succ fuel ih =>
    by_cases amp : ∃ ts, tokens ps = .amp :: ts
    · obtain ⟨ts, first⟩ := amp
      obtain ⟨ps₁, remain, turn⟩ := parseback_amp fuel cmd first
      have shorter : (tokens ps₁).length < fuel := by
        rw [first] at enough
        rw [remain]
        simp only [length_cons] at enough
        omega
      rw [turn]
      obtain ⟨k, ps', ok, split⟩ := @ih _ (.back cmd) shorter
      refine ⟨k + 1, ps', ok, ?_⟩
      rw [first, ← remain, split]
      rfl
    · obtain ⟨ps', same, done⟩ := parseback_done fuel cmd fun ts first => amp ⟨ts, first⟩
      exact ⟨0, ps', done, same.symm⟩

theorem Item.words_append (items items' : List Item) : words (items ++ items') = words items ++ words items' :=
  filterMap_append

theorem Item.redirs_append (items items' : List Item) : redirs (items ++ items') = redirs items ++ redirs items' :=
  filterMap_append

theorem Item.of_redirs (rs : List Redirection) : words (rs.map .redir) = [] ∧ redirs (rs.map .redir) = rs.map Redirection.redir ∧
    (rs.map Item.redir).flatMap tokens = rs.flatMap Redirection.tokens := by
  induction rs with
  | nil => exact ⟨rfl, rfl, rfl⟩
  | cons r rs ih =>
    refine ⟨ih.1, congrArg (r.redir :: ·) ih.2.1, ?_⟩
    simp only [map_cons, flatMap_cons, ih.2.2]
    rfl

theorem parseitems_sound (enough : (tokens ps).length < fuel) (enough' : (tokens ps).length < fuel')
    (few : argv.length < MAXARGS) : Settles (parseitems fuel fuel' argv ret ps) fun (argv', ret', ps') =>
      ∃ items : List Item, argv' = argv ++ Item.words items ∧ ret' = ret ++ Item.redirs items ∧
        tokens ps = items.flatMap Item.tokens ++ tokens ps' ∧ argv'.length < MAXARGS := by
  induction fuel' generalizing fuel argv ret ps with
  | zero => exact absurd enough' (Nat.not_lt_zero _)
  | succ fuel' ih =>
    refine (parseredirs_sound enough).bind ?_
    rintro ⟨ret₁, ps₁⟩ ⟨rs, rfl, split⟩
    obtain ⟨noWords, redirs, flat⟩ := Item.of_redirs rs
    have shorter : (tokens ps₁).length < fuel' + 1 := by
      rw [split, length_append] at enough'
      omega
    by_cases stops : Stops (tokens ps₁)
    · obtain ⟨ps', same, done⟩ := parseargs_stop fuel' argv (ret ++ rs.map Redirection.redir) stops
      refine .inl ⟨_, done, rs.map .redir, ?_, ?_, ?_, few⟩
      · rw [noWords, append_nil]
      · rw [redirs]
      · rw [flat, same, split]
    · cases first : tokens ps₁ with
      | nil => exact absurd (first ▸ trivial) stops
      | cons tok ts =>
        rw [first] at stops shorter
        by_cases word : ∃ w, tok = .word w
        · obtain ⟨w, rfl⟩ := word
          obtain ⟨ps₂, remain, turn⟩ := parseargs_word fuel' argv (ret ++ rs.map Redirection.redir) first
          change Settles (parseargs (fuel' + 1) argv (ret ++ rs.map Redirection.redir) ps₁) _
          rw [turn]
          split_ifs with many
          · exact .inr ⟨_, rfl⟩
          · have shorter₂ : (tokens ps₂).length < fuel' := by
              rw [remain]
              exact Nat.lt_of_succ_lt_succ shorter
            have few₂ : (argv ++ [w]).length < MAXARGS := by
              rw [length_append, length_singleton]
              omega
            rcases ih shorter₂ shorter₂ few₂ with ⟨⟨argv', ret', ps'⟩, ok, items, args, rets, split₂, few'⟩ | panics
            · refine .inl ⟨_, ok, rs.map .redir ++ .word w :: items, ?_, ?_, ?_, few'⟩
              · rw [args, Item.words_append, noWords, append_assoc]
                rfl
              · rw [rets, Item.redirs_append, redirs, append_assoc]
                rfl
              · rw [split, first, ← remain, split₂, flatMap_append, flat, append_assoc]
                rfl
            · exact .inr panics
        · exact .inr ⟨_, parseargs_unexpected first stops fun w eq => word ⟨w, eq⟩⟩

/-- What a function for `cat` may do when called at `ps`. -/
def Sound (cat : Category) (ps : Cursor) (result : Parse (Cmd × Cursor)) : Prop :=
  Settles result fun (cmd, ps') => ∃ ts, tokens ps = ts ++ tokens ps' ∧ Derives cat ts cmd

theorem parseline_sound (enough : (tokens ps).length < fuel) (first : Sound .pipe ps (parsepipe fuel ps))
    (again : ∀ ps', (tokens ps').length < (tokens ps).length → Sound .line ps' (parseline fuel ps')) :
    Sound .line ps (parseline (fuel + 1) ps) := by
  rcases first with ⟨⟨cmd, ps₁⟩, first, ts, split, derives⟩ | ⟨p, panics⟩
  · rw [split, length_append] at enough again
    obtain ⟨k, ps₂, back, split₂⟩ : ∃ k ps', parseback fuel cmd ps₁ = .ok (backs k cmd, ps') ∧
      tokens ps₁ = List.replicate k .amp ++ tokens ps' := parseback_sound (by omega)
    by_cases semi : ∃ ts', tokens ps₂ = .semi :: ts'
    · obtain ⟨ts', semi⟩ := semi
      obtain ⟨ps₃, rfl, turn⟩ := parseline_semi first back semi
      have shorter : (tokens ps₃).length < ts.length + (tokens ps₁).length := by
        simp only [split₂, semi, length_append, length_cons]
        omega
      refine turn ▸ (again ps₃ shorter).map ?_
      rintro ⟨right, ps'⟩ ⟨ts'', split₃, derives'⟩
      refine ⟨ts ++ (List.replicate k .amp ++ .semi :: ts''), ?_, .list k derives derives'⟩
      simp only [split, split₂, semi, split₃, append_assoc, cons_append]
    · obtain ⟨ps', same, done⟩ := parseline_done first back fun ts' eq => semi ⟨ts', eq⟩
      refine .inl ⟨_, done, ts ++ List.replicate k .amp, ?_, .line k derives⟩
      rw [split, split₂, same, append_assoc]
  · exact .inr ⟨p, parseline_fault panics⟩

theorem parsepipe_sound (first : Sound .cmd ps (parseexec fuel ps))
    (again : ∀ ps', (tokens ps').length < (tokens ps).length → Sound .pipe ps' (parsepipe fuel ps')) :
    Sound .pipe ps (parsepipe (fuel + 1) ps) := by
  rcases first with ⟨⟨cmd, ps₁⟩, first, ts, split, derives⟩ | ⟨p, panics⟩
  · by_cases bar : ∃ ts', tokens ps₁ = .bar :: ts'
    · obtain ⟨ts', bar⟩ := bar
      obtain ⟨ps₂, rfl, turn⟩ := parsepipe_bar first bar
      have shorter : (tokens ps₂).length < (tokens ps).length := by
        simp only [split, bar, length_append, length_cons]
        omega
      refine turn ▸ (again ps₂ shorter).map ?_
      rintro ⟨right, ps'⟩ ⟨ts'', split₂, derives'⟩
      refine ⟨ts ++ .bar :: ts'', ?_, .bar derives derives'⟩
      simp only [split, bar, split₂, append_assoc, cons_append]
    · obtain ⟨ps', same, done⟩ := parsepipe_done first fun ts' eq => bar ⟨ts', eq⟩
      exact .inl ⟨_, done, ts, split.trans (congrArg (ts ++ ·) same.symm), .pipe derives⟩
  · exact .inr ⟨p, parsepipe_fault panics⟩

theorem parseblock_sound (first : tokens ps = .opening :: ts) (enough : ts.length < fuel)
    (inner : ∀ ps', tokens ps' = ts → Sound .line ps' (parseline fuel ps')) :
    Sound .cmd ps (parseblock (fuel + 1) ps) := by
  obtain ⟨ps₁, rfl, block⟩ := parseblock_opening fuel first
  refine block ▸ (inner ps₁ rfl).bind ?_
  rintro ⟨cmd, ps₂⟩ ⟨ts, split, derives⟩
  by_cases closing : ∃ ts', tokens ps₂ = .closing :: ts'
  · obtain ⟨ts', closing⟩ := closing
    obtain ⟨ps₃, rfl, close⟩ := closeblock_closing fuel cmd closing
    have shorter : (tokens ps₃).length < fuel := by
      simp only [split, closing, length_append, length_cons] at enough
      omega
    change Settles (closeblock fuel cmd ps₂) _
    rw [close]
    refine (parseredirs_sound shorter).map ?_
    rintro ⟨ret, ps'⟩ ⟨rs, rfl, split'⟩
    refine ⟨.opening :: (ts ++ .closing :: rs.flatMap Redirection.tokens), ?_, .block rs derives⟩
    simp only [first, split, closing, split', append_assoc, cons_append]
  · exact .inr ⟨_, closeblock_missing fun ts' eq => closing ⟨ts', eq⟩⟩

theorem parseexec_sound (enough : (tokens ps).length < fuel)
    (block : ∀ ps' ts, tokens ps' = tokens ps → tokens ps = .opening :: ts → Sound .cmd ps' (parseblock fuel ps')) :
    Sound .cmd ps (parseexec (fuel + 1) ps) := by
  by_cases opening : ∃ ts, tokens ps = .opening :: ts
  · obtain ⟨ts, first⟩ := opening
    obtain ⟨ps', same, turn⟩ := parseexec_block fuel first
    have sound := block ps' ts same first
    unfold Sound at sound
    rw [same] at sound
    exact turn ▸ sound
  · obtain ⟨ps', same, turn⟩ := parseexec_simple fuel fun ts eq => opening ⟨ts, eq⟩
    rw [← same] at enough
    refine turn ▸ (parseitems_sound enough enough (by decide)).map ?_
    rintro ⟨argv, ret, ps''⟩ ⟨items, rfl, rfl, split, few⟩
    exact ⟨items.flatMap Item.tokens, same ▸ split, .exec items few⟩

/-! The parser and the calls it needs, by category. -/

def parse : Category → Nat → Cursor → Parse (Cmd × Cursor)
  | .line => parseline
  | .pipe => parsepipe
  | .cmd => parseexec

def Category.calls (n : Nat) : Category → Nat
  | .line => 4 * n + 4
  | .pipe => 4 * n + 3
  | .cmd => 4 * n + 2

theorem parse_sound (cat : Category) (ps : Cursor) (enough : cat.calls (tokens ps).length ≤ fuel) :
    Sound cat ps (parse cat fuel ps) := by
  induction fuel using Nat.strongRecOn generalizing cat ps with
  | ind fuel ih =>
    cases fuel with
    | zero => cases cat <;> exact absurd enough (Nat.not_succ_le_zero _)
    | succ fuel =>
      cases cat with
      | line =>
        simp only [calls] at enough
        apply parseline_sound (by omega) (ih fuel (Nat.lt_succ_self _) .pipe ps (by simp only [calls]; omega))
        intro ps' shorter
        exact ih fuel (Nat.lt_succ_self _) .line ps' (by simp only [calls]; omega)
      | pipe =>
        simp only [calls] at enough
        apply parsepipe_sound (ih fuel (Nat.lt_succ_self _) .cmd ps (by simp only [calls]; omega))
        intro ps' shorter
        exact ih fuel (Nat.lt_succ_self _) .pipe ps' (by simp only [calls]; omega)
      | cmd =>
        simp only [calls] at enough
        apply parseexec_sound (by omega)
        intro ps' ts same first
        rw [first, length_cons] at enough
        obtain ⟨fuel, rfl⟩ : ∃ less, fuel = less + 1 := ⟨fuel - 1, by omega⟩
        apply parseblock_sound (same.trans first) (by omega)
        rintro ps'' rfl
        exact ih fuel (by omega) .line ps'' (by simp only [calls]; omega)

theorem parseredirs_complete (ret : List Redir) (rs : List Redirection)
    (all : tokens ps = rs.flatMap Redirection.tokens ++ rest) (done : ∀ a ts, rest ≠ .arrow a :: ts) (enough : rs.length < fuel) :
    ∃ ps', tokens ps' = rest ∧ parseredirs fuel ret ps = .ok (ret ++ rs.map Redirection.redir, ps') := by
  induction rs generalizing fuel ret ps with
  | nil =>
    obtain ⟨fuel, rfl⟩ : ∃ less, fuel = less + 1 := ⟨fuel - 1, by omega⟩
    obtain rfl : tokens ps = rest := all
    obtain ⟨ps', same, ok⟩ := parseredirs_done fuel ret done
    exact ⟨ps', same, ok.trans (by rw [map_nil, append_nil])⟩
  | cons r rs ih =>
    obtain ⟨fuel, rfl⟩ : ∃ less, fuel = less + 1 := ⟨fuel - 1, by omega⟩
    obtain ⟨ps₁, remain, turn⟩ := parseredirs_arrow fuel ret all
    obtain ⟨ps', same, ok⟩ := ih (ret ++ [r.redir]) remain (Nat.lt_of_succ_lt_succ enough)
    exact ⟨ps', same, turn.trans (ok.trans (by rw [append_assoc]; rfl))⟩

theorem parseback_complete (cmd : Cmd) (k : Nat) (all : tokens ps = List.replicate k .amp ++ rest)
    (done : ∀ ts, rest ≠ .amp :: ts) (enough : k < fuel) :
    ∃ ps', tokens ps' = rest ∧ parseback fuel cmd ps = .ok (backs k cmd, ps') := by
  induction k generalizing fuel cmd ps with
  | zero =>
    obtain ⟨fuel, rfl⟩ : ∃ less, fuel = less + 1 := ⟨fuel - 1, by omega⟩
    obtain rfl : tokens ps = rest := all
    obtain ⟨ps', same, ok⟩ := parseback_done fuel cmd done
    exact ⟨ps', same, ok⟩
  | succ k ih =>
    obtain ⟨fuel, rfl⟩ : ∃ less, fuel = less + 1 := ⟨fuel - 1, by omega⟩
    obtain ⟨ps₁, remain, turn⟩ := parseback_amp fuel cmd all
    obtain ⟨ps', same, ok⟩ := ih (.back cmd) remain (Nat.lt_of_succ_lt_succ enough)
    exact ⟨ps', same, turn.trans ok⟩

theorem Stops.no_arrow (stops : Stops rest) (a : Arrow) (ts : List Token) : rest ≠ .arrow a :: ts := by
  rintro rfl
  exact stops

theorem parseitems_complete (argv : List Word) (ret : List Redir) (items : List Item)
    (all : tokens ps = items.flatMap Item.tokens ++ rest) (stops : Stops rest)
    (few : argv.length + (Item.words items).length < MAXARGS) (enough : items.length < fuel) (enough' : items.length < fuel') :
    ∃ ps', tokens ps' = rest ∧
      parseitems fuel fuel' argv ret ps = .ok (argv ++ Item.words items, ret ++ Item.redirs items, ps') := by
  induction items generalizing fuel fuel' argv ret ps with
  | nil =>
    obtain ⟨fuel, rfl⟩ : ∃ less, fuel = less + 1 := ⟨fuel - 1, by omega⟩
    obtain ⟨fuel', rfl⟩ : ∃ less, fuel' = less + 1 := ⟨fuel' - 1, by omega⟩
    obtain rfl : tokens ps = rest := all
    obtain ⟨ps₁, same, none⟩ := parseredirs_done fuel ret stops.no_arrow
    rw [← same] at stops
    obtain ⟨ps', same', stop⟩ := parseargs_stop fuel' argv ret stops
    refine ⟨ps', same'.trans same, ?_⟩
    simp only [parseitems, none, bind, Except.bind, stop, Item.words, Item.redirs, filterMap_nil, append_nil]
  | cons item items ih =>
    obtain ⟨fuel, rfl⟩ : ∃ less, fuel = less + 1 := ⟨fuel - 1, by omega⟩
    obtain ⟨fuel', rfl⟩ : ∃ less, fuel' = less + 1 := ⟨fuel' - 1, by omega⟩
    cases item with
    | redir r =>
      obtain ⟨ps₁, remain, turn⟩ := parseredirs_arrow fuel ret all
      obtain ⟨ps', same, ok⟩ := ih argv (ret ++ [r.redir]) remain few (Nat.lt_of_succ_lt_succ enough)
        (Nat.lt_of_succ_lt enough')
      refine ⟨ps', same, ?_⟩
      rw [parseitems, turn]
      exact ok.trans (by rw [append_assoc]; rfl)
    | word w =>
      have arrow : ∀ a ts, tokens ps ≠ .arrow a :: ts := by
        intro a ts first
        cases all.symm.trans first
      obtain ⟨ps₁, same, none⟩ := parseredirs_done fuel ret arrow
      obtain ⟨ps₂, remain, turn⟩ := parseargs_word fuel' argv ret (same.trans all)
      have few' : (argv ++ [w]).length + (Item.words items).length < MAXARGS := by
        change argv.length + ((Item.words items).length + 1) < MAXARGS at few
        rw [length_append, length_singleton]
        omega
      have room : ¬ MAXARGS ≤ argv.length + 1 := by
        rw [length_append, length_singleton] at few'
        omega
      obtain ⟨ps', same', ok⟩ := ih (argv ++ [w]) ret remain few' (Nat.lt_of_succ_lt_succ enough')
        (Nat.lt_of_succ_lt_succ enough')
      refine ⟨ps', same', ?_⟩
      simp only [parseitems, none, bind, Except.bind]
      rw [turn, if_neg room]
      exact ok.trans (by rw [append_assoc]; rfl)

/-- What may stand behind a command, a pipe and a line. -/
def Follows : Category → List Token → Prop
  | .cmd, rest => Stops rest
  | .pipe, rest => Stops rest ∧ ∀ ts, rest ≠ .bar :: ts
  | .line, rest => rest = [] ∨ ∃ ts, rest = .closing :: ts

theorem Follows.pipe_of_line (follows : Follows .line rest) : Follows .pipe rest := by
  rcases follows with rfl | ⟨ts, rfl⟩
  · exact ⟨trivial, nofun⟩
  · exact ⟨trivial, nofun⟩

theorem Follows.replicate_amp (k : Nat) (follows : Follows .pipe rest) : Follows .pipe (List.replicate k .amp ++ rest) := by
  cases k with
  | zero => exact follows
  | succ k => exact ⟨trivial, nofun⟩

theorem length_le_flatMap {α β : Type} {f : α → List β} (some : ∀ a, 0 < (f a).length) (as : List α) :
    as.length ≤ (as.flatMap f).length := by
  induction as with
  | nil => exact Nat.le_refl _
  | cons a as ih =>
    have := some a
    rw [flatMap_cons, length_append, length_cons]
    omega

theorem simple_of_items (items : List Item) (stops : Stops rest) (ts : List Token) :
    items.flatMap Item.tokens ++ rest ≠ .opening :: ts := by
  intro opening
  cases items with
  | nil =>
    change rest = _ at opening
    exact (opening ▸ stops : Stops (.opening :: ts))
  | cons item items => cases item <;> cases opening

theorem parse_complete {cat : Category} (derives : Derives cat ts cmd) (all : tokens ps = ts ++ rest)
    (follows : Follows cat rest) (enough : cat.calls (tokens ps).length ≤ fuel) :
    ∃ ps', tokens ps' = rest ∧ parse cat fuel ps = .ok (cmd, ps') := by
  induction derives generalizing ps rest fuel with
  | @line ts cmd k first ih =>
    simp only [calls] at enough
    obtain ⟨fuel, rfl⟩ : ∃ less, fuel = less + 1 := ⟨fuel - 1, by omega⟩
    rw [append_assoc] at all
    obtain ⟨ps₁, remain, pipe⟩ := @ih _ fuel _ all (follows.pipe_of_line.replicate_amp k)
      (by simp only [calls]; omega)
    have few : k < fuel := by
      simp only [all, length_append, length_replicate] at enough
      omega
    have noAmp : ∀ ts, rest ≠ .amp :: ts := by
      rcases follows with rfl | ⟨ts, rfl⟩ <;> nofun
    obtain ⟨ps₂, rfl, back⟩ := parseback_complete cmd k remain noAmp few
    have noSemi : ∀ ts, tokens ps₂ ≠ .semi :: ts := by
      rcases follows with follows | ⟨ts, follows⟩ <;> rw [follows] <;> nofun
    exact parseline_done pipe back noSemi
  | @list ts ts' cmd right k first next ih ih' =>
    simp only [calls] at enough
    obtain ⟨fuel, rfl⟩ : ∃ less, fuel = less + 1 := ⟨fuel - 1, by omega⟩
    simp only [append_assoc, cons_append] at all
    have follow : Follows .pipe (Token.semi :: (ts' ++ rest)) := ⟨trivial, nofun⟩
    obtain ⟨ps₁, remain, pipe⟩ := @ih _ fuel _ all (follow.replicate_amp k) (by simp only [calls]; omega)
    simp only [all, length_append, length_replicate, length_cons] at enough
    obtain ⟨ps₂, semi, back⟩ := parseback_complete cmd k remain nofun (show k < fuel by omega)
    obtain ⟨ps₃, remain', turn⟩ := parseline_semi pipe back semi
    obtain ⟨ps', same, ok⟩ := @ih' _ fuel _ remain' follows (by
      simp only [calls, remain', length_append]
      omega)
    refine ⟨ps', same, turn.trans ?_⟩
    change (parse .line fuel ps₃).map _ = _
    rw [ok]
    rfl
  | @pipe ts cmd first ih =>
    simp only [calls] at enough
    obtain ⟨fuel, rfl⟩ : ∃ less, fuel = less + 1 := ⟨fuel - 1, by omega⟩
    obtain ⟨ps₁, rfl, exec⟩ := @ih _ fuel _ all follows.1 (by simp only [calls]; omega)
    exact parsepipe_done exec follows.2
  | @bar ts ts' cmd right first next ih ih' =>
    simp only [calls] at enough
    obtain ⟨fuel, rfl⟩ : ∃ less, fuel = less + 1 := ⟨fuel - 1, by omega⟩
    rw [append_assoc, cons_append] at all
    have follow : Follows .cmd (Token.bar :: (ts' ++ rest)) := trivial
    obtain ⟨ps₁, bar, exec⟩ := @ih _ fuel _ all follow (by simp only [calls]; omega)
    obtain ⟨ps₂, remain, turn⟩ := parsepipe_bar exec bar
    simp only [all, length_append, length_cons] at enough
    obtain ⟨ps', same, ok⟩ := @ih' _ fuel _ remain follows (by
      simp only [calls, remain, length_append]
      omega)
    refine ⟨ps', same, turn.trans ?_⟩
    change (parse .pipe fuel ps₂).map _ = _
    rw [ok]
    rfl
  | @block ts cmd redirs inner ih =>
    simp only [append_assoc, cons_append] at all
    simp only [calls, all, length_cons, length_append] at enough
    obtain ⟨fuel, rfl⟩ : ∃ less, fuel = less + 1 + 1 := ⟨fuel - 2, by omega⟩
    obtain ⟨ps₁, same, exec⟩ := parseexec_block (fuel + 1) all
    obtain ⟨ps₂, remain, block⟩ := parseblock_opening fuel (same.trans all)
    obtain ⟨ps₃, closing, line⟩ := @ih _ fuel _ remain (.inr ⟨_, rfl⟩) (by
      simp only [calls, remain, length_append, length_cons]
      omega)
    obtain ⟨ps₄, remain', close⟩ := closeblock_closing fuel cmd closing
    have few : redirs.length < fuel := by
      have := length_le_flatMap (fun r => Nat.zero_lt_succ 1) redirs (f := Redirection.tokens)
      omega
    obtain ⟨ps', rest, ok⟩ := parseredirs_complete [] redirs remain' (Stops.no_arrow follows) few
    refine ⟨ps', rest, exec.trans (block.trans ?_)⟩
    change parse .line fuel ps₂ >>= _ = _
    rw [line]
    change closeblock fuel cmd ps₃ = _
    rw [close, ok]
    rfl
  | @exec items few =>
    simp only [calls, all, length_append] at enough
    obtain ⟨fuel, rfl⟩ : ∃ less, fuel = less + 1 := ⟨fuel - 1, by omega⟩
    obtain ⟨ps₁, same, turn⟩ := parseexec_simple fuel (all ▸ simple_of_items items follows)
    have short : items.length < fuel := by
      have := length_le_flatMap (fun item => by cases item <;> exact Nat.zero_lt_succ _) items (f := Item.tokens)
      omega
    obtain ⟨ps', rest, ok⟩ := parseitems_complete [] [] items (same.trans all) follows
      (by simpa using few) short short
    refine ⟨ps', rest, turn.trans ?_⟩
    rw [ok]
    rfl

section

variable {s : List UInt8} {tree : Cmd} {buf : Nat → UInt8}

theorem leftovers_iff : (peek ps []).2.rest = [] ↔ tokens ps = [] := tokens_eq_nil_iff.symm

theorem calls_le (s : List UInt8) : line.calls (tokens ⟨0, s⟩).length ≤ 4 * (s.length + 1) := by
  have short : (tokens ⟨0, s⟩).length ≤ s.length := length_tokens_le ⟨0, s⟩
  simp only [calls]
  omega

theorem parsecmd_of_derives (derives : Derives .line (tokens ⟨0, s⟩) tree) :
    parsecmd s = .ok (tree, nulterminate tree fun i => s.getD i 0) := by
  obtain ⟨ps, empty, ok⟩ := parse_complete derives (append_nil _).symm (.inl rfl) (calls_le s)
  change parseline _ _ = _ at ok
  have none := leftovers_iff.mpr empty
  simp only [parsecmd, ok, none, ne_eq, not_true, if_false]

theorem parsecmd_settles (s : List UInt8) : Settles (parsecmd s) fun (tree, buf) =>
    Derives .line (tokens ⟨0, s⟩) tree ∧ buf = nulterminate tree fun i => s.getD i 0 := by
  rcases parse_sound .line ⟨0, s⟩ (calls_le s) with ⟨⟨tree, ps⟩, ok, ts, split, derives⟩ | ⟨p, panics⟩
  · change parseline _ _ = _ at ok
    simp only [parsecmd, ok]
    split_ifs with more
    · exact .inr ⟨_, rfl⟩
    · have empty := leftovers_iff.mp (not_not.mp more)
      rw [empty, append_nil] at split
      exact .inl ⟨_, rfl, split ▸ derives, rfl⟩
  · change parseline _ _ = _ at panics
    simp only [parsecmd, panics]
    exact .inr ⟨p, rfl⟩

/-- For a string without NUL, parsecmd returns exactly the trees that its tokens derive, with every word a
NUL-terminated string, and calls panic when there is none. -/
theorem parsecmd_grammar (s : List UInt8) (nulfree : (0 : UInt8) ∉ s) :
    (∀ tree, (∃ buf, parsecmd s = .ok (tree, buf)) ↔ Derives .line (tokens ⟨0, s⟩) tree) ∧
      (∀ tree buf, parsecmd s = .ok (tree, buf) → ∀ w ∈ tree.words, w.Spells s buf) ∧
      ((¬ ∃ tree, Derives .line (tokens ⟨0, s⟩) tree) → ∃ p, parsecmd s = .error (.panic p)) := by
  refine ⟨fun tree => ⟨?_, fun derives => ⟨_, parsecmd_of_derives derives⟩⟩, ?_, ?_⟩
  · rintro ⟨buf, ok⟩
    rcases parsecmd_settles s with ⟨⟨tree', buf'⟩, ok', derives, -⟩ | ⟨p, panics⟩
    · cases ok.symm.trans ok'
      exact derives
    · cases ok.symm.trans panics
  · intro tree buf ok w mem
    rcases parsecmd_settles s with ⟨⟨tree', buf'⟩, ok', derives, rfl⟩ | ⟨p, panics⟩
    · cases ok.symm.trans ok'
      have start : Cursor.At s ⟨0, s⟩ := ⟨[], rfl, rfl⟩
      exact nulterminate_spells nulfree (fun w mem => start.scan _ (derives.word_mem mem)) mem
    · cases ok.symm.trans panics
  · intro none
    rcases parsecmd_settles s with ⟨⟨tree, buf⟩, -, derives, -⟩ | panics
    · exact absurd ⟨tree, derives⟩ none
    · exact panics

def sample : List UInt8 := [ch '(', ch 'a', ch ';', ch 'b', ch ')', ch '>', ch 'c', ch '|', ch 'd', ch '&']

def sampleTree : Cmd :=
  .back (.pipe (.redir (.list (.exec [⟨1, 2⟩]) (.exec [⟨3, 4⟩])) ⟨⟨6, 7⟩, 0x601, 1⟩) (.exec [⟨8, 9⟩]))

theorem sample_accepted : ∃ buf, parsecmd sample = .ok (sampleTree, buf) := by
  have returns : (parsecmd sample).map Prod.fst = .ok sampleTree := by decide +kernel
  cases result : parsecmd sample with
  | error fault =>
    rw [result] at returns
    cases returns
  | ok result' =>
    rw [result] at returns
    exact ⟨result'.2, congrArg Except.ok (Prod.ext (Except.ok.inj returns) rfl)⟩

theorem sample_parses : (0 : UInt8) ∉ sample ∧ Derives .line (tokens ⟨0, sample⟩) sampleTree ∧
    ∃ buf, parsecmd sample = .ok (sampleTree, buf) ∧ ∀ w ∈ sampleTree.words, w.Spells sample buf := by
  have nulfree : (0 : UInt8) ∉ sample := by decide
  obtain ⟨buf, result⟩ := sample_accepted
  obtain ⟨accepts, spells, -⟩ := parsecmd_grammar sample nulfree
  exact ⟨nulfree, (accepts _).mp ⟨buf, result⟩, buf, result, spells _ buf result⟩

end

end DeisoXv6.Shell

import WddProc.CJsonGrammar

/-!
# Parsing inside a block

A parse that does not leave its block does the same when more bytes follow and when
more fuel is there; and fuel is never what ends a parse.
-/

namespace WddProc
namespace Parse

open Outcome

def Longer {α : Type} (x : Bytes) (a b : α × Bytes) : Prop := b = (a.1,a.2 ++ x)

variable (x : Bytes)

theorem skip_le (m : Bytes) : Le (fun r r' => r' = r ++ x) (skip m) (skip (m ++ x)) := by
  induction m with
  | nil => exact Le.fault _
  | cons b m ih =>
    rw [List.cons_append]
    unfold skip
    exact Le.ite (fun _ => ih) (fun _ => Le.done rfl)

theorem startsWith_le (l m : Bytes) : Le Eq (startsWith l m) (startsWith l (m ++ x)) := by
  induction l generalizing m with
  | nil => exact Le.done rfl
  | cons c l ih =>
    cases m with
    | nil => exact Le.fault _
    | cons b m => exact Le.ite (fun _ => ih m) (fun _ => Le.done rfl)

theorem keyword_le (item : CJson) (l m : Bytes) :
    Le (Longer x) (keyword item l m) (keyword item l (m ++ x)) := by
  have hle := startsWith_le x l m
  have hpost := startsWith_done l m
  unfold keyword
  cases hs : startsWith l m with
  | null =>
    rw [hs] at hle
    rw [hle.null_of]
    exact Le.null
  | fault => exact Le.fault _
  | done ok =>
    rw [hs] at hle
    obtain ⟨ok',hok',rfl⟩ := hle.done_of
    rw [hok']
    refine Le.ite (fun hok => Le.done ?_) (fun _ => Le.null)
    have hm : m = l ++ m.drop l.length := hpost ok hs hok
    have hlen : l.length ≤ m.length := by
      rw [hm,List.length_append]
      omega
    rw [Longer,List.drop_append_of_le_length hlen]

theorem digits_le (m : Bytes) : Le (Longer x) (digits m) (digits (m ++ x)) := by
  induction m with
  | nil => exact Le.fault _
  | cons b m ih =>
    rw [List.cons_append]
    unfold digits
    refine Le.ite (fun _ => ih.bind ?_) (fun _ => Le.done rfl)
    rintro ⟨ds,r⟩ _ rfl
    exact Le.done rfl

theorem fraction_le (m : Bytes) : Le (Longer x) (fraction m) (fraction (m ++ x)) := by
  cases m with
  | nil => exact Le.fault _
  | cons b m =>
    rw [List.cons_append]
    unfold fraction
    refine Le.ite (fun _ => ?_) (fun _ => Le.done rfl)
    cases m with
    | nil => exact Le.fault _
    | cons d m => exact Le.ite (fun _ => digits_le x (d :: m)) (fun _ => Le.done rfl)

theorem exponent_le (m : Bytes) : Le (Longer x) (exponent m) (exponent (m ++ x)) := by
  cases m with
  | nil => exact Le.fault _
  | cons b m =>
    rw [List.cons_append]
    unfold exponent
    refine Le.ite (fun _ => ?_) (fun _ => Le.done rfl)
    cases m with
    | nil => exact Le.fault _
    | cons s m =>
      have hd : Le (Longer x) (digits (if s = 43 ∨ s = 45 then m else s :: m))
          (digits (if s = 43 ∨ s = 45 then m ++ x else s :: (m ++ x))) := by
        split
        · exact digits_le x m
        · exact digits_le x (s :: m)
      refine hd.bind ?_
      rintro ⟨ds,r⟩ _ rfl
      exact Le.done rfl

theorem wholeDigits_le (m : Bytes) : Le (Longer x) (wholeDigits m) (wholeDigits (m ++ x)) := by
  cases m with
  | nil => exact Le.fault _
  | cons c m => exact Le.ite (fun _ => digits_le x (c :: m)) (fun _ => Le.done rfl)

theorem wholePart_le (m : Bytes) : Le (Longer x) (wholePart m) (wholePart (m ++ x)) := by
  cases m with
  | nil => exact Le.fault _
  | cons b m =>
    rw [List.cons_append,wholePart_eq,wholePart_eq]
    by_cases hb : b = 48
    · rw [if_pos hb,if_pos hb]
      exact wholeDigits_le x m
    · rw [if_neg hb,if_neg hb]
      exact wholeDigits_le x (b :: m)

theorem literal_le (m : Bytes) : Le (Longer x) (literal m) (literal (m ++ x)) := by
  cases m with
  | nil => exact Le.fault _
  | cons b m =>
    rw [List.cons_append]
    unfold literal
    have hw : Le (Longer x) (wholePart (if b = 45 then m else b :: m))
        (wholePart (if b = 45 then m ++ x else b :: (m ++ x))) := by
      split
      · exact wholePart_le x m
      · exact wholePart_le x (b :: m)
    refine hw.bind ?_
    rintro ⟨w,r⟩ _ rfl
    refine (fraction_le x r).bind ?_
    rintro ⟨fr,r₁⟩ _ rfl
    refine (exponent_le x r₁).bind ?_
    rintro ⟨ex,r₂⟩ _ rfl
    exact Le.done rfl

theorem parseHex_le (n h : ℕ) (m : Bytes) : Le Eq (parseHex n h m) (parseHex n h (m ++ x)) := by
  induction n generalizing h m with
  | zero => exact Le.done rfl
  | succ n ih =>
    cases m with
    | nil => exact Le.fault _
    | cons b m =>
      rw [List.cons_append]
      unfold parseHex
      cases hexVal b with
      | none => exact Le.done rfl
      | some d => exact ih _ m

theorem scanLen_le (m : Bytes) : Le Eq (scanLen m) (scanLen (m ++ x)) := by
  induction m using scanLen.induct with
  | case1 => exact Le.fault _
  | case2 b m hb =>
    rw [List.cons_append,scanLen.eq_def,scanLen.eq_def]
    simp only [if_pos hb]
    exact Le.done rfl
  | case3 hb => exact Le.fault _
  | case4 hb e m ih =>
    rw [List.cons_append,List.cons_append,scanLen_backslash,scanLen_backslash]
    refine ih.bind ?_
    rintro n _ rfl
    exact Le.done rfl
  | case5 b m hb h92 ih =>
    have hb' : b ≠ 34 ∧ b ≠ 0 := not_or.mp hb
    rw [List.cons_append,scanLen_plain hb'.1 hb'.2 h92,scanLen_plain hb'.1 hb'.2 h92]
    refine ih.bind ?_
    rintro n _ rfl
    exact Le.done rfl

/-- The same bytes; reading goes on at the same place unless that lies beyond the block. -/
def Onward (x : Bytes) (a b : Bytes × Bytes) : Prop := b.1 = a.1 ∧ (a.2 ≠ [] → b.2 = a.2 ++ x)

theorem drop_append_of_ne_nil {n : ℕ} {m : Bytes} (h : m.drop n ≠ []) :
    (m ++ x).drop n = m.drop n ++ x := by
  have hn : n ≤ m.length := by
    by_contra hn
    exact h (List.drop_eq_nil_of_le (by omega))
  exact List.drop_append_of_le_length hn

theorem onward_drop (n : ℕ) (bs m : Bytes) : Onward x (bs,m.drop n) (bs,(m ++ x).drop n) :=
  ⟨rfl,fun hne => drop_append_of_ne_nil x hne⟩

theorem unescapeUnicode_le (m : Bytes) :
    Le (Onward x) (unescapeUnicode m) (unescapeUnicode (m ++ x)) := by
  unfold unescapeUnicode
  refine (parseHex_le x 4 0 m).bind ?_
  rintro uc _ rfl
  refine Le.ite (fun _ => Le.done (onward_drop x 4 _ m)) (fun _ => Le.ite (fun _ => ?_)
    (fun _ => Le.done (onward_drop x 4 _ m)))
  match hm : m.drop 4 with
  | [] => exact Le.fault _
  | b :: m₁ =>
    rw [drop_append_of_ne_nil x (by simp [hm]),hm,List.cons_append]
    refine Le.ite (fun _ => Le.done ⟨rfl,fun _ => rfl⟩) (fun _ => ?_)
    cases m₁ with
    | nil => exact Le.fault _
    | cons c m₂ =>
      refine Le.ite (fun _ => Le.done ⟨rfl,fun _ => rfl⟩) (fun _ => ?_)
      refine (parseHex_le x 4 0 m₂).bind ?_
      rintro uc₂ _ rfl
      exact Le.ite (fun _ => Le.done (onward_drop x 10 _ m)) (fun _ => Le.done (onward_drop x 10 _ m))

theorem unescape_nil (f : ℕ) : unescape f [] = .fault := by
  cases f <;> rfl

theorem unescape_le {f f' : ℕ} (hf : f ≤ f') (m : Bytes) :
    Le (Longer x) (unescape f m) (unescape f' (m ++ x)) := by
  induction f generalizing f' m with
  | zero => exact Le.fault _
  | succ f ih =>
    obtain ⟨f',rfl⟩ : ∃ g, f' = g + 1 := ⟨f' - 1,by omega⟩
    have ih' (m : Bytes) : Le (Longer x) (unescape f m) (unescape f' (m ++ x)) := ih (by omega) m
    have hcons (c n : Bytes) : Le (Longer x) (do let r ← unescape f n; .done (c ++ r.1,r.2))
        (do let r ← unescape f' (n ++ x); .done (c ++ r.1,r.2)) := by
      refine (ih' n).bind ?_
      rintro ⟨bs,r⟩ _ rfl
      exact Le.done rfl
    cases m with
    | nil => exact Le.fault _
    | cons b m =>
      rw [List.cons_append]
      unfold unescape
      refine Le.ite (fun _ => Le.done rfl) (fun _ => Le.ite (fun _ => hcons [b] m) (fun _ => ?_))
      cases m with
      | nil => exact Le.fault _
      | cons e m =>
        refine Le.ite (fun _ => ?_) (fun _ => hcons [_] m)
        refine (unescapeUnicode_le x m).bind ?_
        rintro ⟨bs,r⟩ ⟨bs',r'⟩ ⟨rfl,hr⟩
        by_cases hne : r = []
        · -- what lies beyond the block faults in the next round
          rw [hne,unescape_nil]
          exact Le.fault _
        · have hr' : r' = r ++ x := hr hne
          subst hr'
          exact hcons bs' r

theorem parseString_le (m : Bytes) : Le (Longer x) (parseString m) (parseString (m ++ x)) := by
  cases m with
  | nil => exact Le.fault _
  | cons b m =>
    rw [List.cons_append]
    unfold parseString
    refine Le.ite (fun _ => Le.null) (fun _ => (scanLen_le x m).bind ?_)
    rintro len _ rfl
    refine Le.bind (unescape_le x ?_ m) ?_
    · rw [List.length_append]
      omega
    · rintro ⟨bs,r⟩ _ rfl
      refine Le.ite (fun _ => Le.fault _) (fun _ => ?_)
      cases r with
      | nil => exact Le.fault _
      | cons q r =>
        rw [List.cons_append]
        refine Le.done ?_
        rw [Longer]
        split <;> rfl

variable (p : Platform)

theorem parseNumber_le (m : Bytes) : Le (Longer x) (parseNumber p m) (parseNumber p (m ++ x)) := by
  rw [parseNumber_eq,parseNumber_eq]
  refine (literal_le x m).bind ?_
  rintro ⟨l,r⟩ _ rfl
  exact Le.done rfl

theorem skip_bind_le {α : Type} {m : Bytes} {f g : Bytes → Outcome (α × Bytes)}
    (h : ∀ r, Le (Longer x) (f r) (g (r ++ x))) : Le (Longer x) (skip m >>= f) (skip (m ++ x) >>= g) := by
  refine (skip_le x m).bind ?_
  rintro r _ rfl
  exact h r

theorem values_le {f f' : ℕ} (hf : f ≤ f') :
    (∀ m, Le (Longer x) (parseValue p f m) (parseValue p f' (m ++ x))) ∧
    (∀ m, Le (Longer x) (parseArray p f m) (parseArray p f' (m ++ x))) ∧
    (∀ m, Le (Longer x) (parseItems p f m) (parseItems p f' (m ++ x))) ∧
    (∀ m, Le (Longer x) (parseObject p f m) (parseObject p f' (m ++ x))) ∧
    (∀ m, Le (Longer x) (parseMember p f m) (parseMember p f' (m ++ x))) ∧
    ∀ m, Le (Longer x) (parseMembers p f m) (parseMembers p f' (m ++ x)) := by
  induction f generalizing f' with
  | zero => exact ⟨fun m => Le.fault _,fun m => Le.fault _,fun m => Le.fault _,fun m => Le.fault _,
      fun m => Le.fault _,fun m => Le.fault _⟩
  | succ f ih =>
    obtain ⟨f',rfl⟩ : ∃ g, f' = g + 1 := ⟨f' - 1,by omega⟩
    obtain ⟨hvalue,harray,hitems,hobject,hmember,hmembers⟩ :=
      ih (show f ≤ f' by omega)
    -- the loops of arrays and objects, from an entry on
    have hentries {m : Bytes} : Le (Longer x)
        (do
          let r ← parseValue p f m
          let rs ← parseItems p f (← skip r.2)
          .done (r.1 :: rs.1,rs.2))
        (do
          let r ← parseValue p f' (m ++ x)
          let rs ← parseItems p f' (← skip r.2)
          .done (r.1 :: rs.1,rs.2)) := by
      refine (hvalue m).bind ?_
      rintro ⟨t,r⟩ _ rfl
      refine skip_bind_le x fun r => (hitems r).bind ?_
      rintro ⟨ts,r₁⟩ _ rfl
      exact Le.done rfl
    have hfields {m : Bytes} : Le (Longer x)
        (do
          let r ← parseMember p f m
          let rs ← parseMembers p f (← skip r.2)
          .done (r.1 :: rs.1,rs.2))
        (do
          let r ← parseMember p f' (m ++ x)
          let rs ← parseMembers p f' (← skip r.2)
          .done (r.1 :: rs.1,rs.2)) := by
      refine (hmember m).bind ?_
      rintro ⟨t,r⟩ _ rfl
      refine skip_bind_le x fun r => (hmembers r).bind ?_
      rintro ⟨ts,r₁⟩ _ rfl
      exact Le.done rfl
    refine ⟨fun m => ?_,fun m => ?_,fun m => ?_,fun m => ?_,fun m => ?_,fun m => ?_⟩
    · cases m with
      | nil =>
        rw [parseValue_nil]
        exact Le.fault _
      | cons b m =>
        rw [List.cons_append,parseValue_step,parseValue_step]
        refine Le.ite (fun _ => keyword_le x _ _ m) (fun _ => Le.ite (fun _ => keyword_le x _ _ m)
          (fun _ => Le.ite (fun _ => keyword_le x _ _ m) (fun _ => Le.ite (fun _ => ?_)
          (fun _ => Le.ite (fun _ => parseNumber_le x p (b :: m)) (fun _ => Le.ite
          (fun _ => harray (b :: m)) (fun _ => Le.ite (fun _ => hobject (b :: m))
          (fun _ => Le.null)))))))
        refine (parseString_le x (b :: m)).bind ?_
        rintro ⟨s,r⟩ _ rfl
        exact Le.done rfl
    · cases m with
      | nil => exact Le.fault _
      | cons b m =>
        rw [List.cons_append]
        unfold parseArray
        refine Le.ite (fun _ => Le.null) (fun _ => skip_bind_le x fun r => ?_)
        cases r with
        | nil => exact Le.fault _
        | cons c r =>
          refine Le.ite (fun _ => Le.done rfl) (fun _ => skip_bind_le x (m := c :: r) fun m' => ?_)
          refine (hvalue m').bind ?_
          rintro ⟨t,r₁⟩ _ rfl
          refine skip_bind_le x fun r₂ => (hitems r₂).bind ?_
          rintro ⟨ts,r₃⟩ _ rfl
          exact Le.done rfl
    · cases m with
      | nil => exact Le.fault _
      | cons b m =>
        rw [List.cons_append]
        unfold parseItems
        exact Le.ite (fun _ => skip_bind_le x fun m' => hentries)
          (fun _ => Le.ite (fun _ => Le.done rfl) (fun _ => Le.null))
    · cases m with
      | nil => exact Le.fault _
      | cons b m =>
        rw [List.cons_append]
        unfold parseObject
        refine Le.ite (fun _ => Le.null) (fun _ => skip_bind_le x fun r => ?_)
        cases r with
        | nil => exact Le.fault _
        | cons c r =>
          refine Le.ite (fun _ => Le.done rfl) (fun _ => (hmember (c :: r)).bind ?_)
          rintro ⟨t,r₁⟩ _ rfl
          refine skip_bind_le x fun r₂ => (hmembers r₂).bind ?_
          rintro ⟨ts,r₃⟩ _ rfl
          exact Le.done rfl
    · unfold parseMember
      refine skip_bind_le x fun k => (parseString_le x k).bind ?_
      rintro ⟨s,r⟩ _ rfl
      refine skip_bind_le x fun r₁ => ?_
      cases r₁ with
      | nil => exact Le.fault _
      | cons b r₁ =>
        refine Le.ite (fun _ => Le.null) (fun _ => skip_bind_le x fun m' => (hvalue m').bind ?_)
        rintro ⟨t,r₂⟩ _ rfl
        exact Le.done rfl
    · cases m with
      | nil => exact Le.fault _
      | cons b m =>
        rw [List.cons_append]
        unfold parseMembers
        exact Le.ite (fun _ => hfields) (fun _ => Le.ite (fun _ => Le.done rfl) (fun _ => Le.null))

/-- What follows a block has no influence on a parse that stays inside it. -/
theorem cJSONParse_append {m : Bytes} (h : cJSONParse p m ≠ .fault) (x : Bytes) :
    cJSONParse p (m ++ x) = cJSONParse p m := by
  have hle : Le Eq (cJSONParse p m) (cJSONParse p (m ++ x)) := by
    refine (skip_le x m).bind ?_
    rintro r _ rfl
    refine Le.bind ((values_le x p ?_).1 r) ?_
    · rw [List.length_append]
      omega
    · rintro ⟨t,r₁⟩ _ rfl
      exact Le.done rfl
  exact hle.eq h

theorem parseValue_shorter {f : ℕ} {m : Bytes} {r : CJson × Bytes} (h : parseValue p f m = .done r) :
    r.2.length < m.length := by
  obtain ⟨j,hj,-⟩ := (values_at p f).1 m r h
  exact hj.shorter

theorem parseMember_shorter {f : ℕ} {m : Bytes} {r : CJson × Bytes}
    (h : parseMember p f m = .done r) : r.2.length < m.length := by
  obtain ⟨x,hx,-⟩ := (values_at p f).2.2.2.2.1 m r h
  exact hx.shorter

theorem values_fuel {f f' : ℕ} :
    (∀ m : Bytes, 3 * m.length + 1 ≤ f → 3 * m.length + 1 ≤ f' →
      parseValue p f m = parseValue p f' m) ∧
    (∀ m : Bytes, 3 * m.length ≤ f → 3 * m.length ≤ f' → parseArray p f m = parseArray p f' m) ∧
    (∀ m : Bytes, 3 * m.length + 1 ≤ f → 3 * m.length + 1 ≤ f' →
      parseItems p f m = parseItems p f' m) ∧
    (∀ m : Bytes, 3 * m.length ≤ f → 3 * m.length ≤ f' → parseObject p f m = parseObject p f' m) ∧
    (∀ m : Bytes, 3 * m.length + 2 ≤ f → 3 * m.length + 2 ≤ f' →
      parseMember p f m = parseMember p f' m) ∧
    ∀ m : Bytes, 3 * m.length + 1 ≤ f → 3 * m.length + 1 ≤ f' →
      parseMembers p f m = parseMembers p f' m := by
  induction f generalizing f' with
  | zero =>
    have hnil {m : Bytes} (h : 3 * m.length ≤ 0) : m = [] := List.length_eq_zero_iff.mp (by omega)
    refine ⟨fun m h _ => by omega,fun m h _ => ?_,fun m h _ => by omega,fun m h _ => ?_,
      fun m h _ => by omega,fun m h _ => by omega⟩
    · obtain rfl := hnil h
      cases f' <;> rfl
    · obtain rfl := hnil h
      cases f' <;> rfl
  | succ f ih =>
    have hskip {α : Type} {m : Bytes} {g g' : Bytes → Outcome α}
        (h : ∀ r : Bytes, r.length ≤ m.length → g r = g' r) : (skip m >>= g) = (skip m >>= g') :=
      bind_congr fun r hr => h r (skip_within m r hr)
    refine ⟨fun m h h' => ?_,fun m h h' => ?_,fun m h h' => ?_,fun m h h' => ?_,fun m h h' => ?_,
      fun m h h' => ?_⟩
    all_goals
      obtain _ | ⟨b,m⟩ := m
      · cases f' <;> rfl
      rw [List.length_cons] at h h'
      obtain ⟨f',rfl⟩ : ∃ g, f' = g + 1 := ⟨f' - 1,by omega⟩
      obtain ⟨hvalue,harray,hitems,hobject,hmember,hmembers⟩ := @ih f'
    · have hb : (b :: m).length = m.length + 1 := rfl
      rw [parseValue_step,parseValue_step,harray _ (by omega) (by omega),hobject _ (by omega) (by omega)]
    · unfold parseArray
      refine ite_congr rfl (fun _ => rfl) (fun _ => hskip fun r hr => ?_)
      cases r with
      | nil => rfl
      | cons c r =>
        refine ite_congr rfl (fun _ => rfl) (fun _ => hskip (m := c :: r) fun m' hm' => ?_)
        rw [hvalue m' (by omega) (by omega)]
        refine bind_congr fun t ht => hskip fun r₂ hr₂ => ?_
        have hlt := parseValue_shorter p ht
        rw [hitems r₂ (by omega) (by omega)]
    · unfold parseItems
      refine ite_congr rfl (fun _ => hskip fun m' hm' => ?_) (fun _ => rfl)
      rw [hvalue m' (by omega) (by omega)]
      refine bind_congr fun t ht => hskip fun r₂ hr₂ => ?_
      have hlt := parseValue_shorter p ht
      rw [hitems r₂ (by omega) (by omega)]
    · unfold parseObject
      refine ite_congr rfl (fun _ => rfl) (fun _ => hskip fun r hr => ?_)
      cases r with
      | nil => rfl
      | cons c r =>
        refine ite_congr rfl (fun _ => rfl) (fun _ => ?_)
        rw [hmember (c :: r) (by omega) (by omega)]
        refine bind_congr fun t ht => hskip fun r₂ hr₂ => ?_
        have hlt := parseMember_shorter p ht
        rw [hmembers r₂ (by omega) (by omega)]
    · unfold parseMember
      refine hskip fun k hk => bind_congr fun s hs => hskip fun r₁ hr₁ => ?_
      have hlt : s.2.length < k.length := parseString_shorter k s hs
      rw [List.length_cons] at hk
      cases r₁ with
      | nil => rfl
      | cons c r₁ =>
        rw [List.length_cons] at hr₁
        refine ite_congr rfl (fun _ => rfl) (fun _ => hskip fun m' hm' => ?_)
        rw [hvalue m' (by omega) (by omega)]
    · unfold parseMembers
      refine ite_congr rfl (fun _ => ?_) (fun _ => rfl)
      rw [hmember m (by omega) (by omega)]
      refine bind_congr fun t ht => hskip fun r₂ hr₂ => ?_
      have hlt := parseMember_shorter p ht
      rw [hmembers r₂ (by omega) (by omega)]

/-- Any larger amount of fuel than `cJSON_Parse` has is as good. -/
theorem parseValue_fuel {m r : Bytes} (hr : r.length ≤ m.length) {f : ℕ} (hf : 3 * m.length + 3 ≤ f) :
    parseValue p f r = parseValue p (3 * m.length + 3) r :=
  (values_fuel p).1 r (by omega) (by omega)

end Parse
end WddProc

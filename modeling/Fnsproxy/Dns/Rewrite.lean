import Fnsproxy.Dns.Walk

/-!
# Which answers are rewritten

* `question_walk` : the parser behind the question of an encoded message;
* `putWord_encode` : writing the window is rewriting the record;
* `rewritesAnswer_of_aligned` : on aligned messages the parser meets its purpose exactly if no address
  outside the answer section is in its way;
* `misaligned_unchanged` : misaligned messages come out as they were;
* `dnsParseProxy_rewrites_iff` : **both together**;
* `not_rewritesAnswer` : an ordinary response whose address stays as it is.
-/

namespace Fnsproxy
open Word Bytes

variable {g : GeoT} {m : Message} {cs rest : List Record} {r : Record} {a : U32}

/-! ## The question -/

/-- The question of a message in the buffer, and its records behind. -/
structure Laid (b : Buffer) (m : Message) : Prop where
  count : half b 4 = 1
  qname : Holds b 12 m.qname.encode
  qtype : Holds b (12 + m.qname.encode.length) (bytes16 1)
  qclass : Holds b (12 + m.qname.encode.length + 2) (bytes16 m.qclass)
  records : At b m.encode.length (12 + m.qname.encode.length + 4) m.records

theorem laid (m : Message) : Laid (ofList m.encode) m := by
  have h := holds_ofList m.encode
  obtain ⟨e, he⟩ : ∃ e, e = m.encode.length := ⟨_, rfl⟩
  rw [Message.encode, List.length_append, List.length_append, List.length_append, List.length_append] at he
  rw [show m.header.length = 12 from rfl, show (bytes16 1).length = 2 from rfl,
    show (bytes16 m.qclass).length = 2 from rfl] at he
  generalize ofList m.encode = b at h
  rw [Message.encode, holds_append, holds_append, holds_append, holds_append, show m.header.length = 12 from rfl,
    show (bytes16 1).length = 2 from rfl, show (bytes16 m.qclass).length = 2 from rfl, Nat.zero_add] at h
  obtain ⟨hheader, hqname, hqtype, hqclass, hrecords⟩ := h
  refine ⟨?_, ?_, ?_, ?_, ?_, ?_⟩
  · unfold Message.header at hheader
    rw [holds_append, holds_append, holds_append, holds_append] at hheader
    exact half_bytes16 hheader.1.1.1.2
  · exact hqname
  · exact hqtype
  · exact hqclass
  · exact hrecords
  · rw [Message.encode, List.length_append, List.length_append, List.length_append, List.length_append,
      show m.header.length = 12 from rfl, show (bytes16 1).length = 2 from rfl,
      show (bytes16 m.qclass).length = 2 from rfl]
    omega

/-- Behind a question name that ends at its only zero byte the parser enters the loop at the records. -/
theorem question_walk {b : Buffer} (h : Laid b m) (hq : m.qname.EndsAtZero) {x : Nat × Bool}
    (hx : WhileLoop.Returns (answerStep b m.encode.length) (12 + m.qname.encode.length + 4) (some x)) :
    dnsParseProxy g b m.encode.length = some (dnsFinish g b m.encode.length x) := by
  have hend := at_le h.records
  obtain ⟨z, hz, hb, h12, hbefore⟩ := hq.holds h.qname
  have hskip : skipHostname b m.encode.length = some z :=
    scan_eq (fun hc => hc.2 hb) h12 (fun i h1 h2 => ⟨by omega, hbefore i h1 h2⟩) (by omega)
  have htype : half b (z + 1) = dnsARecord := by
    rw [hz, half_bytes16 h.qtype]
    rfl
  obtain ⟨q, found, hrun, -⟩ := answerLoop_spec b m.encode.length (12 + m.qname.encode.length + 4)
  obtain rfl : x = (q, found) := Option.some.inj (WhileLoop.Returns.unique hx ⟨_, hrun⟩)
  unfold dnsParseProxy
  rw [if_neg (not_not.mpr h.count), hskip]
  simp only [if_neg (show ¬ (m.encode.length < z + 1 + 4 ∨ half b (z + 1) ≠ dnsARecord) from
    not_or.mpr ⟨by omega, not_not.mpr htype⟩)]
  rw [hz, hrun]
  rfl

theorem untouched_question (hq : m.qname.EndsAtZero)
    (h : Untouched g (ofList m.encode) m.encode.length (12 + m.qname.encode.length + 4)) :
    ∃ ret, dnsParseProxy g (ofList m.encode) m.encode.length = some (ret, ofList m.encode) := by
  obtain ⟨x, ret, hx, hret⟩ := h
  exact ⟨ret, (question_walk (laid m) hq hx).trans (congrArg some hret)⟩

theorem question_misaligned (hz : (0 : U8) ∉ m.qname.encode) :
    dnsParseProxy g (ofList m.encode) m.encode.length = some (-1, ofList m.encode) := by
  have h := laid m
  have hend := at_le h.records
  generalize ofList m.encode = b at h
  obtain ⟨n, hn⟩ : ∃ n, n = 12 + m.qname.encode.length := ⟨_, rfl⟩
  have hqtype := h.qtype
  rw [← hn] at hqtype
  obtain ⟨hb0, hqtype⟩ := holds_cons.mp hqtype
  have hskip : skipHostname b m.encode.length = some n :=
    scan_eq (fun hc => hc.2 hb0) (show 12 ≤ n by omega) (fun i h1 h2 => ⟨by omega, h.qname.ne_zero hz h1 (by omega)⟩)
      (show n - 12 < m.encode.length + 1 by omega)
  have hread : 256 ≤ half b (n + 1) := by
    rw [half, be16, (holds_cons.mp hqtype).1]
    simp
  unfold dnsParseProxy
  rw [if_neg (not_not.mpr h.count), hskip]
  have hA : dnsARecord = 1 := rfl
  exact if_pos (Or.inr (by omega))

/-! ## The window of an address -/

theorem putWord_ofList (pre post : List U8) (a b : U32) :
    putWord (ofList (pre ++ (bytes32 a ++ post))) pre.length b = ofList (pre ++ (bytes32 b ++ post)) := by
  funext i
  unfold putWord ofList
  split_ifs with h
  · obtain ⟨k, rfl⟩ : ∃ k, i = pre.length + k := ⟨i - pre.length, by omega⟩
    rw [Nat.add_sub_cancel_left, List.getD_append_right _ _ _ _ (Nat.le_add_right ..), Nat.add_sub_cancel_left,
      List.getD_append _ _ _ _ (show k < 4 by omega)]
    match k, (show k < 4 by omega) with
    | 0, _ | 1, _ | 2, _ | 3, _ => rfl
  · rcases Nat.lt_or_ge i pre.length with hi | hi
    · rw [List.getD_append _ _ _ _ hi, List.getD_append _ _ _ _ hi]
    · have h4 : 4 ≤ i - pre.length := by omega
      rw [List.getD_append_right _ _ _ _ hi, List.getD_append_right _ _ _ _ hi,
        List.getD_append_right (bytes32 a) _ _ _ h4, List.getD_append_right (bytes32 b) _ _ _ h4]
      rfl

theorem encode_answersWith (h : AnswersWith m cs r rest a) : ∃ pre post,
    m.encode = pre ++ (bytes32 a ++ post) ∧ (∀ b, (m.rewrite h b).encode = pre ++ (bytes32 b ++ post)) ∧
      post = (rest ++ m.authorities ++ m.additionals).flatMap Record.encode := by
  refine ⟨m.header ++ (m.qname.encode ++ (bytes16 1 ++ (bytes16 m.qclass ++
    (cs.flatMap Record.encode ++ (r.name.encode ++ r.fixed))))), _, ?_, fun b => ?_, rfl⟩
  · rw [Message.encode, Message.records, h.answers]
    simp only [List.append_assoc, List.flatMap_append, List.flatMap_cons, List.cons_append, Record.encode, h.address.2]
  · have hheader : (m.rewrite h b).header = m.header := by
      simp only [Message.header, Message.rewrite, h.answers, List.length_append, List.length_cons]
    have hfixed : (r.withAddress b).fixed = r.fixed := by
      simp only [Record.fixed, Record.withAddress, h.address.2]
      rfl
    rw [Message.encode, hheader, Message.records]
    simp only [Message.rewrite, List.append_assoc, List.flatMap_append, List.flatMap_cons, List.cons_append,
      Record.encode, hfixed]
    rfl

theorem putWord_encode (h : AnswersWith m cs r rest a) (b : U32) {o : Nat}
    (ho : o + 4 + ((rest ++ m.authorities ++ m.additionals).flatMap Record.encode).length = m.encode.length) :
    putWord (ofList m.encode) o b = ofList (m.rewrite h b).encode := by
  obtain ⟨pre, post, hencode, hrewrite, hpost⟩ := encode_answersWith h
  obtain rfl : o = pre.length := by
    rw [hencode, List.length_append, List.length_append, ← hpost, show (bytes32 a).length = 4 from rfl] at ho
    omega
  rw [hencode, hrewrite, putWord_ofList]

theorem encode_rewrite_ne (h : AnswersWith m cs r rest a) {b : U32} (hb : b ≠ a) :
    ofList (m.rewrite h b).encode ≠ ofList m.encode := by
  obtain ⟨pre, post, hencode, hrewrite, -⟩ := encode_answersWith h
  intro heq
  have hword : ∀ x, word (ofList (pre ++ (bytes32 x ++ post))) pre.length = x := fun x =>
    word_bytes32 (by simpa using (holds_append.mp (holds_append.mp (holds_ofList (pre ++ (bytes32 x ++ post)))).2).1)
  rw [hencode, hrewrite] at heq
  exact hb ((hword b).symm.trans ((congrArg (word · pre.length) heq).trans (hword a)))

/-! ## Splitting the records -/

/-- Records are CNAME records only, or such records before one of another kind. -/
theorem split_records (rs : List Record) : (∀ c ∈ rs, c.IsCname) ∨
    ∃ cs r rest, rs = cs ++ r :: rest ∧ (∀ c ∈ cs, c.IsCname) ∧ ¬ r.IsCname := by
  induction rs with
  | nil => exact Or.inl (by simp)
  | cons r rs ih =>
    by_cases hr : r.IsCname
    · rcases ih with hall | ⟨cs, r', rest, rfl, hcs, hr'⟩
      · exact Or.inl (List.forall_mem_cons.mpr ⟨hr, hall⟩)
      · exact Or.inr ⟨r :: cs, r', rest, rfl, List.forall_mem_cons.mpr ⟨hr, hcs⟩, hr'⟩
    · exact Or.inr ⟨[], r, rs, rfl, by simp, hr⟩

theorem split_unique {cs cs' rest rest' : List Record} {r r' : Record} (h : cs ++ r :: rest = cs' ++ r' :: rest')
    (hcs : ∀ c ∈ cs, c.IsCname) (hcs' : ∀ c ∈ cs', c.IsCname) (hr : ¬ r.IsCname) (hr' : ¬ r'.IsCname) :
    cs = cs' := by
  induction cs generalizing cs' with
  | nil =>
    cases cs' with
    | nil => rfl
    | cons c cs' =>
      rw [List.nil_append, List.cons_append, List.cons.injEq] at h
      exact absurd (h.1 ▸ hcs' c List.mem_cons_self) hr
  | cons c cs ih =>
    cases cs' with
    | nil =>
      rw [List.nil_append, List.cons_append, List.cons.injEq] at h
      exact absurd (h.1 ▸ hcs c List.mem_cons_self) hr'
    | cons c' cs' =>
      rw [List.cons_append, List.cons_append, List.cons.injEq] at h
      rw [h.1, ih h.2 (fun x hx => hcs x (List.mem_cons_of_mem _ hx)) (fun x hx => hcs' x (List.mem_cons_of_mem _ hx))]

theorem AnswersWith.records (h : AnswersWith m cs r rest a) :
    m.records = cs ++ r :: (rest ++ m.authorities ++ m.additionals) := by
  simp only [Message.records, h.answers, List.append_assoc, List.cons_append]

theorem answers_of_records (h : m.records = cs ++ r :: rest) (hlt : cs.length < m.answers.length) :
    ∃ rest', m.answers = cs ++ r :: rest' := by
  rw [Message.records, List.append_assoc, List.append_eq_append_iff] at h
  rcases h with ⟨as, hcs, -⟩ | ⟨bs, hans, hrest⟩
  · rw [hcs, List.length_append] at hlt
    omega
  · cases bs with
    | nil =>
      rw [hans, List.append_nil] at hlt
      exact absurd hlt (Nat.lt_irrefl _)
    | cons b bs =>
      rw [List.cons_append, List.cons.injEq] at hrest
      exact ⟨bs, by rw [hans, hrest.1]⟩

theorem mem_of_visited {cs' rest' : List Record} {r' : Record} (h : cs ++ r :: rest = cs' ++ r' :: rest')
    (hr : ¬ r.IsCname) (hcs' : ∀ c ∈ cs', c.IsCname) : r' = r ∨ r' ∈ cs := by
  induction cs generalizing cs' with
  | nil =>
    cases cs' with
    | nil => exact Or.inl (List.cons.inj h).1.symm
    | cons c cs' =>
      rw [List.nil_append, List.cons_append, List.cons.injEq] at h
      exact absurd (h.1 ▸ hcs' c List.mem_cons_self) hr
  | cons c cs ih =>
    cases cs' with
    | nil => exact Or.inr (by rw [← (List.cons.inj h).1]; exact List.mem_cons_self)
    | cons c' cs' =>
      rw [List.cons_append, List.cons_append, List.cons.injEq] at h
      exact (ih h.2 (fun x hx => hcs' x (List.mem_cons_of_mem _ hx))).imp id (List.mem_cons_of_mem _)

theorem aligned_iff (h : m.records = cs ++ r :: rest) (hcs : ∀ c ∈ cs, c.IsCname) (hr : ¬ r.IsCname) :
    m.Aligned ↔ m.qname.EndsAtZero ∧ (∀ c ∈ cs, c.name.Aligned) ∧ r.name.Aligned := by
  refine and_congr_right fun _ => ⟨fun hall => ⟨fun c hc => ?_, hall cs r rest h hcs⟩, ?_⟩
  · obtain ⟨s, t, rfl⟩ := List.append_of_mem hc
    refine hall s c (t ++ r :: rest) (by rw [h]; simp) fun x hx => hcs x (by simp [hx])
  · rintro ⟨hall, hlast⟩ cs' r' rest' h' hcs'
    rcases mem_of_visited (h.symm.trans h') hr hcs' with rfl | hmem
    · exact hlast
    · exact hall r' hmem

/-! ## Aligned messages -/

/-- The first record of an aligned message that is no CNAME record decides: an address is replaced. -/
theorem aligned_address (h : m.records = cs ++ r :: rest) (hcs : ∀ c ∈ cs, c.IsCname) (haddr : r.IsAddress a)
    (ha : m.Aligned) : ∃ o, o + 4 + (rest.flatMap Record.encode).length = m.encode.length ∧
      word (ofList m.encode) o = a ∧ dnsParseProxy g (ofList m.encode) m.encode.length =
        some (if geoGet g a ≠ invalidIpAddr then (0, putWord (ofList m.encode) o (geoGet g a))
          else (-1, ofList m.encode)) := by
  obtain ⟨hq, hnames, hname⟩ := (aligned_iff h hcs (not_isCname_of_isAddress haddr)).mp ha
  have hlaid := laid m
  have hat := hlaid.records
  rw [h] at hat
  obtain ⟨p, hat, hp, hret⟩ := cnames_walk (List.cons_ne_nil _ _) cs _ hat (by omega)
    (fun c hc => ⟨hcs c hc, hnames c hc⟩)
  obtain ⟨x, o, hx, ho, hword, hfinish⟩ := address_walk (g := g) hat hname hp haddr
  exact ⟨o, ho, hword, by rw [question_walk hlaid hq (hret _ hx), hfinish]⟩

theorem aligned_untouched (ha : m.Aligned)
    (hnone : ∀ cs r rest a, m.records = cs ++ r :: rest → (∀ c ∈ cs, c.IsCname) → ¬ r.IsAddress a) :
    ∃ ret, dnsParseProxy g (ofList m.encode) m.encode.length = some (ret, ofList m.encode) := by
  have hat := (laid m).records
  apply untouched_question ha.1
  rcases split_records m.records with hall | ⟨cs, r, rest, h, hcs, hr⟩
  · refine cnames_untouched _ _ hat (by omega) fun c hc => ⟨hall c hc, ?_⟩
    obtain ⟨s, t, hst⟩ := List.append_of_mem hc
    exact ha.2 s c t hst fun x hx => hall x (by rw [hst]; simp [hx])
  · obtain ⟨-, hnames, hname⟩ := (aligned_iff h hcs hr).mp ha
    rw [h] at hat
    obtain ⟨p, hat, hp, hret⟩ := cnames_walk (List.cons_ne_nil _ _) cs _ hat (by omega)
      (fun c hc => ⟨hcs c hc, hnames c hc⟩)
    obtain ⟨x, ret, hx, hfinish⟩ := other_walk (g := g) hat hname hp hr (hnone cs r rest · h hcs)
    exact ⟨x, ret, hret _ hx, hfinish⟩

theorem putWord_ne {b : Buffer} {o : Nat} {w : U32} (h : word b o ≠ w) : putWord b o w ≠ b := by
  intro he
  rw [← he, word_putWord] at h
  exact h rfl

theorem rewritesAnswer_of_aligned (ha : m.Aligned) : RewritesAnswer g m ↔ m.AddressInAnswers g := by
  constructor
  · rintro ⟨-, hother⟩ cs r rest a h hcs haddr hvalid hchange
    by_contra hge
    have hshape : ¬ ∃ cs r rest a, AnswersWith m cs r rest a := by
      rintro ⟨cs', r', rest', a', h'⟩
      have hcs' := split_unique (h.symm.trans h'.records) hcs h'.cnames (not_isCname_of_isAddress haddr)
        (not_isCname_of_isAddress h'.address)
      rw [h'.answers, hcs', List.length_append, List.length_cons] at hge
      omega
    obtain ⟨ret, hret⟩ := hother hshape
    obtain ⟨o, -, hword, hres⟩ := aligned_address (g := g) h hcs haddr ha
    rw [hres, if_pos hvalid] at hret
    exact putWord_ne (fun he => hchange (he.symm.trans hword)) (Prod.mk.inj (Option.some.inj hret)).2
  · intro hinside
    refine ⟨fun cs r rest a h hvalid => ?_, fun hshape => ?_⟩
    · obtain ⟨o, ho, -, hres⟩ := aligned_address (g := g) h.records h.cnames h.address ha
      rw [hres, if_pos hvalid, putWord_encode h _ ho]
    · by_cases hnone : ∀ cs r rest a, m.records = cs ++ r :: rest → (∀ c ∈ cs, c.IsCname) → ¬ r.IsAddress a
      · exact aligned_untouched ha hnone
      · obtain ⟨cs, r, rest, a, h, hcs, haddr⟩ : ∃ cs r rest a, m.records = cs ++ r :: rest ∧
            (∀ c ∈ cs, c.IsCname) ∧ r.IsAddress a := by
          by_contra hno
          exact hnone fun cs r rest a h hcs haddr => hno ⟨cs, r, rest, a, h, hcs, haddr⟩
        obtain ⟨o, -, hword, hres⟩ := aligned_address (g := g) h hcs haddr ha
        by_cases hvalid : geoGet g a ≠ invalidIpAddr
        · by_cases hchange : geoGet g a = a
          · exact ⟨0, by rw [hres, if_pos hvalid, hchange, ← hword, putWord_word]⟩
          · obtain ⟨rest', hans⟩ := answers_of_records h (hinside cs r rest a h hcs haddr hvalid hchange)
            exact absurd ⟨cs, r, rest', a, hans, hcs, haddr⟩ hshape
        · exact ⟨-1, by rw [hres, if_neg hvalid]⟩

/-! ## Misaligned messages -/

/-- The loop ends at the first misaligned name before an address, and changes nothing. -/
theorem misaligned_untouched {b : Buffer} {e : Nat} (haddr : r.IsAddress a) (hr : r.name.ZeroFree) :
    ∀ (cs : List Record) (p : Nat), At b e p (cs ++ r :: rest) → 0 < p →
    (∀ c ∈ cs, c.IsCname ∧ c.name.ZeroFree) → ¬ ((∀ c ∈ cs, c.name.Aligned) ∧ r.name.Aligned) →
    Untouched g b e p := by
  have hrdata : r.rdata.length = 4 := by
    rw [haddr.2]
    rfl
  intro cs
  induction cs with
  | nil =>
    intro p h hp _ hmis
    have hend := at_le (at_cons h).next
    have htype : r.type.toNat = 1 := isAddress_type haddr
    exact misaligned_walk h (fun ha => hmis ⟨by simp, ha⟩) hr (by omega) (by omega) (by omega)
  | cons c cs ih =>
    intro p h hp hcs hmis
    obtain ⟨hc, hz⟩ := hcs c List.mem_cons_self
    rw [List.cons_append] at h
    have hend := (at_cons h).next.2
    have hlong := length_records (show cs ++ r :: rest ≠ [] by simp)
    by_cases ha : c.name.Aligned
    · obtain ⟨q, hat, hq, hret⟩ := cnames_walk (show cs ++ r :: rest ≠ [] by simp) [c] p h hp
        (by simp [hc, ha])
      obtain ⟨x, ret, hx, hfinish⟩ := ih q hat hq (fun c' hc' => hcs c' (List.mem_cons_of_mem _ hc'))
        fun hall => hmis ⟨List.forall_mem_cons.mpr ⟨ha, hall.1⟩, hall.2⟩
      exact ⟨x, ret, hret _ hx, hfinish⟩
    · have htype : c.type.toNat = 5 := isCname_iff.mp hc
      exact misaligned_walk h ha hz (by omega) (by omega) (by omega)

theorem misaligned_unchanged (h : m.records = cs ++ r :: rest) (hcs : ∀ c ∈ cs, c.IsCname) (haddr : r.IsAddress a)
    (hq : m.qname.ZeroFree) (hz : ∀ x ∈ cs ++ [r], x.name.ZeroFree) (hmis : ¬ m.Aligned) :
    ∃ ret, dnsParseProxy g (ofList m.encode) m.encode.length = some (ret, ofList m.encode) := by
  rw [aligned_iff h hcs (not_isCname_of_isAddress haddr), not_and] at hmis
  rcases hq.cases with hend | h0
  · have hat := (laid m).records
    rw [h] at hat
    exact untouched_question hend (misaligned_untouched haddr (hz r (by simp)) cs _ hat (by omega)
      (fun c hc => ⟨hcs c hc, hz c (by simp [hc])⟩) (hmis hend))
  · exact ⟨-1, question_misaligned h0⟩

/-- **When the parser meets its purpose.** On an aligned message: exactly if no address that `geo_get`
changes is the first record that is no CNAME record without being an answer. On a message with such
an address and no zero octets in its labels: exactly if it is aligned, for an address in the answer
section, and exactly if it is not, for any other. -/
theorem dnsParseProxy_rewrites_iff (g : GeoT) (m : Message) :
    (m.Aligned → (RewritesAnswer g m ↔ m.AddressInAnswers g)) ∧
    ∀ cs r rest a, m.records = cs ++ r :: rest → (∀ c ∈ cs, c.IsCname) → r.IsAddress a →
      geoGet g a ≠ invalidIpAddr → geoGet g a ≠ a → m.qname.ZeroFree → (∀ x ∈ cs ++ [r], x.name.ZeroFree) →
      (RewritesAnswer g m ↔ (m.Aligned ↔ cs.length < m.answers.length)) := by
  refine ⟨rewritesAnswer_of_aligned, fun cs r rest a h hcs haddr hvalid hchange hq hz => ?_⟩
  by_cases ha : m.Aligned
  · rw [rewritesAnswer_of_aligned ha, iff_true_left ha]
    refine ⟨fun hin => hin cs r rest a h hcs haddr hvalid hchange, ?_⟩
    intro hlt cs' r' rest' a' h' hcs' haddr' _ _
    rw [← split_unique (h.symm.trans h') hcs hcs' (not_isCname_of_isAddress haddr) (not_isCname_of_isAddress haddr')]
    exact hlt
  · obtain ⟨ret, hret⟩ := misaligned_unchanged (g := g) h hcs haddr hq hz ha
    rw [iff_false_left ha]
    constructor
    · rintro ⟨hshape, -⟩ hlt
      obtain ⟨rest', hans⟩ := answers_of_records h hlt
      have hsome := hshape cs r rest' a ⟨hans, hcs, haddr⟩ hvalid
      rw [hret] at hsome
      exact encode_rewrite_ne ⟨hans, hcs, haddr⟩ hchange (Prod.mk.inj (Option.some.inj hsome)).2.symm
    · intro hge
      refine ⟨fun cs' r' rest' a' h' _ => ?_, fun _ => ⟨ret, hret⟩⟩
      rw [split_unique (h.symm.trans h'.records) hcs h'.cnames (not_isCname_of_isAddress haddr)
        (not_isCname_of_isAddress h'.address), h'.answers, List.length_append, List.length_cons] at hge
      omega

/-- A response to the question `w.x`: `w.x` is an alias of `x`, and `x` has an address; the owners are named by pointers. -/
def aliasAndPointers : Message where
  id := 7
  flags := 0x8180
  qname := ⟨[⟨[0x77], by decide, by decide⟩, ⟨[0x78], by decide, by decide⟩], .root⟩
  qclass := 1
  answers := [⟨⟨[], .pointer 12⟩, 5, 1, 60, [0xc0, 0x0e], by decide⟩,
    ⟨⟨[], .pointer 14⟩, 1, 1, 60, bytes32 0x0a000001, by decide⟩]
  authorities := []
  additionals := []
  ancount := by decide
  nscount := by decide
  arcount := by decide

/-- Its address is replaced. -/
theorem dnsParseProxy_rewrites_iff_alias : RewritesAnswer (.range ⟨fun _ => none, 0x01020304⟩) aliasAndPointers := by
  have hcname : ∀ c ∈ [(⟨⟨[], .pointer 12⟩, 5, 1, 60, [0xc0, 0x0e], by decide⟩ : Record)],
      c.IsCname ∧ c.name.Aligned ∧ c.name.ZeroFree := by
    intro c hc
    obtain rfl := List.mem_singleton.mp hc
    exact ⟨rfl, Or.inl ⟨rfl, by simp⟩, by simp [Name.ZeroFree]⟩
  have haddr : Record.IsAddress ⟨⟨[], .pointer 14⟩, 1, 1, 60, bytes32 0x0a000001, by decide⟩ 0x0a000001 := ⟨rfl, rfl⟩
  have haligned : aliasAndPointers.Aligned := by
    refine (aligned_iff rfl (fun c hc => (hcname c hc).1) (not_isCname_of_isAddress haddr)).mpr ⟨?_, ?_, ?_⟩
    · exact ⟨[1, 0x77, 1, 0x78], rfl, by decide⟩
    · exact fun c hc => (hcname c hc).2.1
    · exact Or.inl ⟨rfl, by simp⟩
  refine ((dnsParseProxy_rewrites_iff _ aliasAndPointers).2 _ _ [] 0x0a000001 rfl (fun c hc => (hcname c hc).1) haddr
    (by decide) (by decide) ?_ ?_).mpr (iff_of_true haligned (by decide))
  · simp [Name.ZeroFree, aliasAndPointers]
  · intro x hx
    rcases List.mem_append.mp hx with hx | hx
    · exact (hcname x hx).2.2
    · obtain rfl := List.mem_singleton.mp hx
      simp [Name.ZeroFree]

/-- A response to the question `w.x` whose answer names its owner by the label `w` and a pointer to `x`. -/
def labelAndPointer : Message where
  id := 7
  flags := 0x8180
  qname := ⟨[⟨[0x77], by decide, by decide⟩, ⟨[0x78], by decide, by decide⟩], .root⟩
  qclass := 1
  answers := [⟨⟨[⟨[0x77], by decide, by decide⟩], .pointer 14⟩, 1, 1, 60, bytes32 0x0a000001, by decide⟩]
  authorities := []
  additionals := []
  ancount := by decide
  nscount := by decide
  arcount := by decide

/-- The address of that answer stays, whatever the geo table says. -/
theorem not_rewritesAnswer : ¬ RewritesAnswer (.range ⟨fun _ => none, 0x01020304⟩) labelAndPointer := by
  rintro ⟨hshape, -⟩
  have hsome := hshape [] _ [] 0x0a000001 ⟨rfl, by simp, rfl, rfl⟩ (by decide)
  have hbyte := congrArg (Option.map fun x => x.2 38) hsome
  exact absurd hbyte (by decide)

end Fnsproxy

import Lifecycle.Text

/-!
# Canonical decompositions

What Unicode 15 says of characters that are written in two ways: the one or two characters that a
composed character stands for (the second is 0 when there is none), the combining class of marks,
and which characters a composed text has.
-/

namespace Lifecycle

namespace Decomposition

/-- Characters that are composed with a mark: for each mark, letters and what becomes of them, in
turn. The mark 0 stands for none. -/
def composed : List (Nat × String) :=
  [(0, "\u0300\u0340\u0301\u0341\u0313\u0343\u02b9\u0374\u003b\u037e\u00b7\u0387\u03ac\u1f71" ++
      "\u03ad\u1f73\u03ae\u1f75\u03af\u1f77\u03cc\u1f79\u03cd\u1f7b\u03ce\u1f7d\u0386\u1fbb" ++
      "\u03b9\u1fbe\u0388\u1fc9\u0389\u1fcb\u0390\u1fd3\u038a\u1fdb\u03b0\u1fe3\u038e\u1feb" ++
      "\u0385\u1fee\u0060\u1fef\u038c\u1ff9\u038f\u1ffb\u00b4\u1ffd\u2002\u2000\u2003\u2001" ++
      "\u03a9\u2126\u004b\u212a\u00c5\u212b\u3008\u2329\u3009\u232a"),
    (0x300, "AÀEÈIÌOÒUÙaàeèiìoòuùÜǛüǜNǸnǹЕЀИЍеѐиѝĒḔēḕŌṐōṑWẀwẁÂẦâầĂẰăằÊỀêềÔỒôồƠỜơờƯỪưừYỲyỳἀἂἁἃἈἊ" ++
      "ἉἋἐἒἑἓἘἚἙἛἠἢἡἣἨἪἩἫἰἲἱἳἸἺἹἻὀὂὁὃὈὊὉὋὐὒὑὓὙὛὠὢὡὣὨὪὩὫαὰεὲηὴιὶοὸυὺωὼΑᾺΕῈΗῊ᾿῍ϊῒΙῚ῾῝ϋῢΥῪ¨῭ΟῸΩῺ"),
    (0x301, "AÁEÉIÍOÓUÚYÝaáeéiíoóuúyýCĆcćLĹlĺNŃnńRŔrŕSŚsśZŹzźÜǗüǘGǴgǵÅǺåǻÆǼæǽØǾøǿ̈̈́¨΅ΑΆΕΈΗΉΙΊΟΌΥ" ++
      "ΎΩΏϊΐαάεέηήιίϋΰοόυύωώϒϓГЃКЌгѓкќÇḈçḉĒḖēḗÏḮïḯKḰkḱMḾmḿÕṌõṍŌṒōṓPṔpṕŨṸũṹWẂwẃÂẤâấĂẮăắÊẾêếÔỐôốƠỚ" ++
      "ơớƯỨưứἀἄἁἅἈἌἉἍἐἔἑἕἘἜἙἝἠἤἡἥἨἬἩἭἰἴἱἵἸἼἹἽὀὄὁὅὈὌὉὍὐὔὑὕὙὝὠὤὡὥὨὬὩὭ᾿῎῾῞"),
    (0x302, "AÂEÊIÎOÔUÛaâeêiîoôuûCĈcĉGĜgĝHĤhĥJĴjĵSŜsŝWŴwŵYŶyŷZẐzẑẠẬạậẸỆẹệỌỘọộ"),
    (0x303, "AÃNÑOÕaãnñoõIĨiĩUŨuũVṼvṽÂẪâẫĂẴăẵEẼeẽÊỄêễÔỖôỗƠỠơỡƯỮưữYỸyỹ"),
    (0x304, "AĀaāEĒeēIĪiīOŌoōUŪuūÜǕüǖÄǞäǟȦǠȧǡÆǢæǣǪǬǫǭÖȪöȫÕȬõȭȮȰȯȱYȲyȳИӢиӣУӮуӯGḠgḡḶḸḷḹṚṜṛṝαᾱΑᾹιῑΙ" ++
      "ῙυῡΥῩ"), (0x306, "AĂaăEĔeĕGĞgğIĬiĭOŎoŏUŬuŭУЎИЙийуўЖӁжӂАӐаӑЕӖеӗȨḜȩḝẠẶạặαᾰΑᾸιῐΙῘυῠΥῨ"),
    (0x307, "CĊcċEĖeėGĠgġIİZŻzżAȦaȧOȮoȯBḂbḃDḊdḋFḞfḟHḢhḣMṀmṁNṄnṅPṖpṗRṘrṙSṠsṡŚṤśṥŠṦšṧṢṨṣṩTṪtṫWẆwẇX" ++
      "ẊxẋYẎyẏſẛ"),
    (0x308, "AÄEËIÏOÖUÜaäeëiïoöuüyÿYŸΙΪΥΫιϊυϋϒϔЕЁІЇеёіїАӒаӓӘӚәӛЖӜжӝЗӞзӟИӤиӥОӦоӧӨӪөӫЭӬэӭУӰуӱЧӴчӵЫ" ++
      "ӸыӹHḦhḧÕṎõṏŪṺūṻWẄwẅXẌxẍtẗ"), (0x309, "AẢaảÂẨâẩĂẲăẳEẺeẻÊỂêểIỈiỉOỎoỏÔỔôổƠỞơởUỦuủƯỬưửYỶyỷ"),
    (0x30A, "AÅaåUŮuůwẘyẙ"), (0x30B, "OŐoőUŰuűУӲуӳ"),
    (0x30C, "CČcčDĎdďEĚeěLĽlľNŇnňRŘrřSŠsšTŤtťZŽzžAǍaǎIǏiǐOǑoǒUǓuǔÜǙüǚGǦgǧKǨkǩƷǮʒǯjǰHȞhȟ"),
    (0x30F, "AȀaȁEȄeȅIȈiȉOȌoȍRȐrȑUȔuȕѴѶѵѷ"), (0x311, "AȂaȃEȆeȇIȊiȋOȎoȏRȒrȓUȖuȗ"),
    (0x313, "αἀΑἈεἐΕἘηἠΗἨιἰΙἸοὀΟὈυὐωὠΩὨρῤ"), (0x314, "αἁΑἉεἑΕἙηἡΗἩιἱΙἹοὁΟὉυὑΥὙωὡΩὩρῥΡῬ"),
    (0x31B, "OƠoơUƯuư"),
    (0x323, "BḄbḅDḌdḍHḤhḥKḲkḳLḶlḷMṂmṃNṆnṇRṚrṛSṢsṣTṬtṭVṾvṿWẈwẉZẒzẓAẠaạEẸeẹIỊiịOỌoọƠỢơợUỤuụƯỰưựYỴyỵ"),
    (0x324, "UṲuṳ"), (0x325, "AḀaḁ"), (0x326, "SȘsșTȚtț"),
    (0x327, "CÇcçGĢgģKĶkķLĻlļNŅnņRŖrŗSŞsşTŢtţEȨeȩDḐdḑHḨhḩ"), (0x328, "AĄaąEĘeęIĮiįUŲuųOǪoǫ"),
    (0x32D, "DḒdḓEḘeḙLḼlḽNṊnṋTṰtṱUṶuṷ"), (0x32E, "HḪhḫ"), (0x330, "EḚeḛIḬiḭUṴuṵ"),
    (0x331, "BḆbḇDḎdḏKḴkḵLḺlḻNṈnṉRṞrṟTṮtṯZẔzẕhẖ"),
    (0x338, "←↚→↛↔↮⇐⇍⇔⇎⇒⇏∃∄∈∉∋∌∣∤∥∦∼≁≃≄≅≇≈≉=≠≡≢≍≭<≮>≯≤≰≥≱≲≴≳≵≶≸≷≹≺⊀≻⊁⊂⊄⊃⊅⊆⊈⊇⊉⊢⊬⊨⊭⊩⊮⊫⊯≼⋠≽⋡⊑⋢⊒⋣⊲⋪⊳" ++
      "⋫⊴⋬⊵⋭⫝⫝̸"), (0x342, "ἀἆἁἇἈἎἉἏἠἦἡἧἨἮἩἯἰἶἱἷἸἾἹἿὐὖὑὗὙὟὠὦὡὧὨὮὩὯαᾶ¨῁ηῆ᾿῏ιῖϊῗ῾῟υῦϋῧωῶ"),
    (0x345, "ἀᾀἁᾁἂᾂἃᾃἄᾄἅᾅἆᾆἇᾇἈᾈἉᾉἊᾊἋᾋἌᾌἍᾍἎᾎἏᾏἠᾐἡᾑἢᾒἣᾓἤᾔἥᾕἦᾖἧᾗἨᾘἩᾙἪᾚἫᾛἬᾜἭᾝἮᾞἯᾟὠᾠὡᾡὢᾢὣᾣὤᾤὥᾥὦᾦὧᾧὨᾨὩ" ++
      "ᾩὪᾪὫᾫὬᾬὭᾭὮᾮὯᾯὰᾲαᾳάᾴᾶᾷΑᾼὴῂηῃήῄῆῇΗῌὼῲωῳώῴῶῷΩῼ"), (0x5B4, "ייִ"), (0x5B7, "ײײַאאַ"), (0x5B8, "אאָ"),
    (0x5B9, "ווֹ"), (0x5BC, "אאּבבּגגּדדּההּווּזזּטטּייּךךּככּללּממּננּססּףףּפפּצצּקקּררּששּתתּ"), (0x5BF, "בבֿככֿפפֿ"),
    (0x5C1, "ששׁשּשּׁ"), (0x5C2, "ששׂשּשּׂ"), (0x653, "اآ"), (0x654, "اأوؤيئەۀہۂےۓ"), (0x655, "اإ"),
    (0x93C, "नऩरऱळऴकक़खख़गग़जज़डड़ढढ़फफ़यय़"), (0x9BC, "ডড়ঢঢ়যয়"), (0x9BE, "েো"), (0x9D7, "েৌ"),
    (0xA3C, "ਲਲ਼ਸਸ਼ਖਖ਼ਗਗ਼ਜਜ਼ਫਫ਼"), (0xB3C, "ଡଡ଼ଢଢ଼"), (0xB3E, "େୋ"), (0xB56, "େୈ"), (0xB57, "େୌ"),
    (0xBBE, "ெொேோ"), (0xBD7, "ஒஔெௌ"), (0xC56, "ెై"), (0xCC2, "ೆೊ"), (0xCD5, "ಿೀೆೇೊೋ"),
    (0xCD6, "ೆೈ"), (0xD3E, "െൊേോ"), (0xD57, "െൌ"), (0xDCA, "ෙේොෝ"), (0xDCF, "ෙො"), (0xDDF, "ෙෞ"),
    (0xF72, "ཱཱི"), (0xF74, "ཱཱུ"), (0xF80, "ྲྲྀླླཱཱྀྀ"), (0xFB5, "ཀཀྵྐྐྵ"),
    (0xFB7, "གགྷཌཌྷདདྷབབྷཛཛྷྒྒྷྜྜྷྡྡྷྦྦྷྫྫྷ"), (0x102E, "ဥဦ"), (0x1B35, "ᬅᬆᬇᬈᬉᬊᬋᬌᬍᬎᬑᬒᬺᬻᬼᬽᬾᭀᬿᭁᭂᭃ"),
    (0x3099, "かがきぎくぐけげこごさざしじすずせぜそぞただちぢつづてでとどはばひびふぶへべほぼうゔゝゞカガキギクグケゲコゴサザシジスズセゼソゾタダチヂツヅテデトドハバヒビフブヘベ" ++
      "ホボウヴワヷヰヸヱヹヲヺヽヾ"), (0x309A, "はぱひぴふぷへぺほぽハパヒピフプヘペホポ"), (0x110BA, "𑂙𑂚𑂛𑂜𑂥𑂫"), (0x11127, "𑄱𑄮𑄲𑄯"),
    (0x1133E, "𑍇𑍋"), (0x11357, "𑍇𑍌"), (0x114B0, "𑒹𑒼"), (0x114BA, "𑒹𑒻"), (0x114BD, "𑒹𑒾"),
    (0x115AF, "𑖸𑖺𑖹𑖻"), (0x11930, "𑤵𑤸"), (0x1D165, "𝅗𝅗𝅥𝅘𝅘𝅥𝆹𝆹𝅥𝆺𝆺𝅥"), (0x1D16E, "𝅘𝅥𝅘𝅥𝅮𝆹𝅥𝆹𝅥𝅮𝆺𝅥𝆺𝅥𝅮"),
    (0x1D16F, "𝅘𝅥𝅘𝅥𝅯𝆹𝅥𝆹𝅥𝅯𝆺𝅥𝆺𝅥𝅯"), (0x1D170, "𝅘𝅥𝅘𝅥𝅰"), (0x1D171, "𝅘𝅥𝅘𝅥𝅱"), (0x1D172, "𝅘𝅥𝅘𝅥𝅲")]

def composedWith (mark : Nat) : List Char → List (Nat × Nat × Nat)
  | letter :: whole :: cs => (whole.toNat, letter.toNat, mark) :: composedWith mark cs
  | _ => []

def ideographs : List (Nat × String) :=
  [(0xF900, "豈更車賈滑串句龜龜契金喇奈懶癩羅蘿螺裸邏樂洛烙珞落酪駱亂卵欄爛蘭鸞嵐濫藍襤拉臘蠟廊朗浪狼郎來冷勞擄櫓爐盧老蘆虜路露魯鷺碌祿綠菉錄鹿論壟弄籠聾牢磊賂雷壘屢樓淚漏累縷陋勒" ++
    "肋凜凌稜綾菱陵讀拏樂諾丹寧怒率異北磻便復不泌數索參塞省葉說殺辰沈拾若掠略亮兩凉梁糧良諒量勵呂女廬旅濾礪閭驪麗黎力曆歷轢年憐戀撚漣煉璉秊練聯輦蓮連鍊列劣咽烈裂說廉念捻殮簾獵令囹寧嶺怜玲" ++
    "瑩羚聆鈴零靈領例禮醴隸惡了僚寮尿料樂燎療蓼遼龍暈阮劉杻柳流溜琉留硫紐類六戮陸倫崙淪輪律慄栗率隆利吏履易李梨泥理痢罹裏裡里離匿溺吝燐璘藺隣鱗麟林淋臨立笠粒狀炙識什茶刺切度拓糖宅洞暴輻行" ++
    "降見廓兀嗀"),
    (0xFA10, "塚"), (0xFA12, "晴"), (0xFA15, "凞猪益礼神祥福靖精羽"), (0xFA20, "蘒"), (0xFA22, "諸"),
    (0xFA25, "逸都"),
    (0xFA2A, "飯飼館鶴郞隷侮僧免勉勤卑喝嘆器塀墨層屮悔慨憎懲敏既暑梅海渚漢煮爫琢碑社祉祈祐祖祝禍禎穀突節練縉繁署者臭艹艹著褐視謁謹賓贈辶逸難響頻恵𤋮舘"),
    (0xFA70, "並况全侀充冀勇勺喝啕喙嗢塚墳奄奔婢嬨廒廙彩徭惘慎愈憎慠懲戴揄搜摒敖晴朗望杖歹殺流滛滋漢瀞煮瞧爵犯猪瑱甆画瘝瘟益盛直睊着磌窱節类絛練缾者荒華蝹襁覆視調諸請謁諾諭謹變贈" ++
      "輸遲醙鉶陼難靖韛響頋頻鬒龜𢡊𢡄𣏕㮝䀘䀹𥉉𥳐𧻓齃龎"),
    (0x2F800, "丽丸乁𠄢你侮侻倂偺備僧像㒞𠘺免兔兤具𠔜㒹內再𠕋冗冤仌冬况𩇟凵刃㓟刻剆割剷㔕勇勉勤勺包匆北卉卑博即卽卿卿卿𠨬灰及叟𠭣叫叱吆咞吸呈周咢哶唐啓啣善善喙喫喳嗂圖嘆圗噑噴切" ++
      "壮城埴堍型堲報墬𡓤売壷夆多夢奢𡚨𡛪姬娛娧姘婦㛮㛼嬈嬾嬾𡧈寃寘寧寳𡬘寿将当尢㞁屠屮峀岍𡷤嵃𡷦嵮嵫嵼巡巢㠯巽帨帽幩㡢𢆃㡼庰庳庶廊𪎒廾𢌱𢌱舁弢弢㣇𣊸𦇚形彫㣣徚忍志忹悁㤺㤜悔𢛔惇慈慌慎慌" ++
      "慺憎憲憤憯懞懲懶成戛扝抱拔捐𢬌挽拼捨掃揤𢯱搢揅掩㨮摩摾撝摷㩬敏敬𣀊旣書晉㬙暑㬈㫤冒冕最暜肭䏙朗望朡杞杓𣏃㭉柺枅桒梅𣑭梎栟椔㮝楂榣槪檨𣚣櫛㰘次𣢧歔㱎歲殟殺殻𣪍𡴋𣫺汎𣲼沿泍汧洖派海流" ++
      "浩浸涅𣴞洴港湮㴳滋滇𣻑淹潮𣽞𣾎濆瀹瀞瀛㶖灊災灷炭𠔥煅𤉣熜𤎫爨爵牐𤘈犀犕𤜵𤠔獺王㺬玥㺸㺸瑇瑜瑱璅瓊㼛甤𤰶甾𤲒異𢆟瘐𤾡𤾸𥁄㿼䀈直𥃳𥃲𥄙𥄳眞真真睊䀹瞋䁆䂖𥐝硎碌磌䃣𥘦祖𥚚𥛅福秫䄯穀穊穏" ++
      "𥥼𥪧𥪧竮䈂𥮫篆築䈧𥲀糒䊠糨糣紀𥾆絣䌁緇縂繅䌴𦈨𦉇䍙𦋙罺𦌾羕翺者𦓚𦔣聠𦖨聰𣍟䏕育脃䐋脾媵𦞧𦞵𣎓𣎜舁舄辞䑫芑芋芝劳花芳芽苦𦬼若茝荣莭茣莽菧著荓菊菌菜𦰶𦵫𦳕䔫蓱蓳蔖𧏊蕤𦼬䕝䕡𦾱𧃒䕫虐虜" ++
      "虧虩蚩蚈蜎蛢蝹蜨蝫螆䗗蟡蠁䗹衠衣𧙧裗裞䘵裺㒻𧢮𧥦䚾䛇誠諭變豕𧲨貫賁贛起𧼯𠠄跋趼跰𠣞軔輸𨗒𨗭邔郱鄑𨜮鄛鈸鋗鋘鉼鏹鐕𨯺開䦕閷𨵷䧦雃嶲霣𩅅𩈚䩮䩶韠𩐊䪲𩒖頋頋頩𩖶飢䬳餩馧駂駾䯎𩬰鬒鱀鳽䳎" ++
      "䳭鵧𪃎䳸𪄅𪈎𪊑麻䵖黹黾鼅鼏鼖鼻𪘀")]

def ideographsFrom (first : Nat) : List Char → List (Nat × Nat × Nat)
  | [] => []
  | c :: cs => (first, c.toNat, 0) :: ideographsFrom (first + 1) cs

def parts : List (Nat × Nat × Nat) :=
  (composed.flatMap fun e => composedWith e.1 e.2.toList) ++
    ideographs.flatMap fun e => ideographsFrom e.1 e.2.toList

def classes : List (Nat × Nat × Nat) :=
  classRuns 0 (Text.numerals <|
    "768 21 230 0 1 232 0 4 220 0 1 232 0 1 216 0 5 220 0 2 202 0 4 220 0 2 202 0 11 220 0 5 1 " ++
    "0 4 220 0 8 230 0 1 240 0 1 230 0 3 220 0 3 230 0 2 220 1 3 230 0 4 220 0 1 230 0 1 232 0 " ++
    "2 220 0 1 230 0 1 233 0 2 234 0 1 233 0 2 234 0 1 233 0 13 230 275 5 230 265 1 220 0 4 230 " ++
    "0 1 220 0 3 230 0 1 222 0 1 220 0 6 230 0 6 220 0 2 230 0 1 220 0 2 230 0 1 222 0 1 228 0 " ++
    "1 230 0 1 10 0 1 11 0 1 12 0 1 13 0 1 14 0 1 15 0 1 16 0 1 17 0 1 18 0 2 19 0 1 20 0 1 21 " ++
    "0 1 22 1 1 23 1 1 24 0 1 25 1 1 230 0 1 220 1 1 18 72 8 230 0 1 30 0 1 31 0 1 32 48 1 27 0 " ++
    "1 28 0 1 29 0 1 30 0 1 31 0 1 32 0 1 33 0 1 34 0 2 230 0 2 220 0 5 230 0 1 220 0 2 230 0 1 " ++
    "220 16 1 35 101 7 230 2 4 230 0 1 220 0 1 230 2 2 230 1 1 220 0 2 230 0 1 220 35 1 36 30 1 " ++
    "230 0 1 220 0 2 230 0 1 220 0 2 230 0 3 220 0 1 230 0 2 220 0 1 230 0 1 220 0 3 230 0 1 " ++
    "220 0 1 230 0 1 220 0 1 230 0 1 220 0 1 230 0 1 220 0 2 230 160 7 230 0 1 220 0 1 230 9 1 " ++
    "220 24 4 230 1 9 230 1 3 230 1 5 230 43 3 220 60 1 230 0 3 220 0 4 230 42 5 230 0 5 220 0 " ++
    "14 230 1 1 220 0 2 230 0 1 220 0 2 230 0 1 220 0 3 230 0 3 220 0 1 27 0 1 28 0 1 29 0 3 " ++
    "230 0 1 220 0 2 230 0 2 220 0 5 230 60 1 7 16 1 9 3 1 230 0 1 220 0 2 230 103 1 7 16 1 9 " ++
    "48 1 230 61 1 7 16 1 9 110 1 7 16 1 9 110 1 7 16 1 9 127 1 9 110 1 7 16 1 9 7 1 84 0 1 91 " ++
    "101 1 7 16 1 9 109 2 9 16 1 9 124 1 9 109 2 103 0 1 9 13 4 107 108 2 118 0 1 9 13 4 122 76 " ++
    "2 220 27 1 220 1 1 220 1 1 216 55 1 129 0 1 130 1 1 132 5 4 130 2 1 130 1 2 230 0 1 9 1 2 " ++
    "230 62 1 220 112 1 7 1 2 9 82 1 220 719 3 230 948 2 9 30 1 9 157 1 9 10 1 230 203 1 228 " ++
    "143 1 222 0 1 230 0 1 220 219 1 230 0 1 220 71 1 9 20 8 230 2 1 220 48 5 230 0 6 220 0 2 " ++
    "230 0 1 220 1 2 220 0 2 230 0 2 220 0 5 230 0 1 220 0 4 230 101 1 7 15 1 9 38 1 230 0 1 " ++
    "220 0 7 230 54 2 9 58 1 7 11 2 9 67 1 7 152 3 230 1 1 1 0 5 220 0 2 230 0 4 220 0 1 230 1 " ++
    "7 1 4 1 220 6 1 230 3 2 230 198 2 230 0 1 220 0 7 230 0 1 220 0 2 230 0 1 234 0 1 214 0 1 " ++
    "220 0 1 202 0 37 230 0 1 232 0 2 228 0 1 220 0 1 218 0 1 230 0 1 233 0 1 220 0 1 230 0 1 " ++
    "220 720 2 230 0 2 1 0 4 230 0 3 1 0 2 230 4 1 230 3 2 1 0 1 230 0 1 220 0 1 230 0 2 1 0 4 " ++
    "220 0 1 230 3070 3 230 141 1 9 96 32 230 554 1 218 0 1 228 0 1 232 0 1 222 0 2 224 105 2 8 " ++
    "30164 1 230 4 10 230 32 2 230 80 2 230 276 1 9 37 1 9 151 1 9 27 18 230 57 3 220 37 1 9 95 " ++
    "1 7 12 1 9 239 1 230 1 2 230 0 1 220 2 2 230 5 2 230 1 1 230 52 1 9 246 1 9 20272 1 26 769 " ++
    "7 230 0 7 220 0 2 230 973 1 220 226 1 220 149 5 230 1682 1 220 1 1 230 40 1 230 0 1 1 0 1 " ++
    "220 4 1 9 165 1 230 0 1 220 573 4 230 387 2 230 80 3 220 70 2 220 0 3 230 0 1 220 0 1 230 " ++
    "0 4 220 49 1 230 0 1 220 0 1 230 0 1 220 192 1 9 41 1 9 14 1 9 57 1 9 0 1 7 69 3 230 48 2 " ++
    "9 62 1 7 76 1 9 9 1 7 106 1 9 0 1 7 178 1 7 0 1 9 80 2 7 16 1 9 24 7 230 3 5 230 205 1 9 3 " ++
    "1 7 23 1 230 99 1 9 0 1 7 251 1 9 0 1 7 126 1 9 118 1 9 0 1 7 115 1 9 269 1 9 0 1 7 258 2 " ++
    "9 4 1 7 156 1 9 83 1 9 18 1 9 81 1 9 421 1 9 258 1 7 1 2 9 81 1 9 425 2 9 19373 5 1 59 7 " ++
    "230 1209 2 6 19628 1 1 5318 2 216 0 3 1 3 1 226 0 5 216 8 8 220 2 5 230 0 2 220 30 4 230 " ++
    "148 3 230 3515 7 230 1 17 230 2 7 230 1 2 230 1 5 230 100 1 230 160 7 230 375 1 230 61 4 " ++
    "230 508 2 232 0 1 220 0 1 230 992 7 220 109 6 230 0 1 7")
where
  classRuns (start : Nat) : List Nat → List (Nat × Nat × Nat)
    | skip :: take :: cls :: rest =>
      (start + skip, start + skip + take - 1, cls) :: classRuns (start + skip + take) rest
    | _ => []

def joining : List (Nat × Nat) :=
  Text.runs <|
    "768 5 1 7 2 1 1 1 1 2 6 1 7 6 4 2 1 2 6 1 9 1 2 1 781 3 742 1 129 1 24 1 358 1 23 2 102 1 " ++
    "24 1 126 1 107 1 18 2 103 1 24 1 114 1 4 1 15 1 590 1 306 21 50 27 2418 1 5475 2 57375 1 " ++
    "108 1 534 1 24 1 344 1 9 1 2 1 241 1 896 1"

def unwritten : List (Nat × Nat) :=
  Text.runs <|
    "832 2 1 2 47 1 9 1 8 1 1488 8 124 2 1 1 83 1 2 1 34 3 2 1 253 2 997 1 9 1 4 1 4 1 4 1 12 1 " ++
    "9 1 1 2 1 1 8 1 17 1 9 1 4 1 4 1 4 1 12 1 4023 1 1 1 1 1 1 1 1 1 1 1 1 1 61 1 2 1 10 1 1 1 " ++
    "7 1 7 1 7 1 7 1 2 2 9 1 1 1 1 1 2 2 292 1 3 2 509 2 1969 1 52771 270 2 1 1 1 2 10 1 1 1 1 " ++
    "2 2 3 68 2 106 67 1 1 1 10 13 1 5 1 1 1 2 1 2 1 9 54799 7 86 6 75327 542"

/-- Characters that count for more marks than their canonical decomposition has, because of what
they resemble: how many of them lead and how many trail. -/
def counts : List (Nat × Nat × Nat × Nat) :=
  table.flatMap fun (marks, ranges) => (Text.runs ranges).map fun r => (r.1, r.2, marks)
where
  table : List ((Nat × Nat) × String) :=
    [((0, 1), "168 1 6 1 4 1 3 1 267 3 273 6 156 1 9 1 7224 1 1 2 60 2 24 1 38 1 4188 2 465 17 " ++
      "133 1 2 1 8 1 13 1 2 1 16 1 8 1 4 1 10 1 2 1 51285 2 10 2 169 3 50 1 72 1 98 2 267 4 35 " ++
      "3 1 1 1 10 1 12 104 6 232 1 61999 1"),
    ((0, 2), "901 1 3057 1 1 1 4167 1 11 3 13 3 13 2 56431 6 142 3"),
    ((1, 1), "12595 1 1 2 3 6 15 21 52794 2 3 1 1 2 3 6 18 6 2 6 2 6 2 3")]

end Decomposition

end Lifecycle

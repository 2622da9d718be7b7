import DeepinPwCheck.Text.Bytes
import DeepinPwCheck.Text.Decimal
import DeepinPwCheck.Text.Format
import DeepinPwCheck.Text.Lines
import DeepinPwCheck.Text.Utf8
import DeepinPwCheck.Ini.LogicalLines
import DeepinPwCheck.Ini.Reading
import DeepinPwCheck.Ini.Settings
import DeepinPwCheck.Ini.Truncated
import DeepinPwCheck.Loops.PairScan
import DeepinPwCheck.Loops.Reached
import DeepinPwCheck.Loops.Repeats
import DeepinPwCheck.Loops.Streaks
import DeepinPwCheck.Hash.ChainedBlocks
import DeepinPwCheck.Hash.BlockBuffer
import DeepinPwCheck.Hash.BlockCollisions
import DeepinPwCheck.Hash.Bigcrypt
import DeepinPwCheck.Hash.Md5Crypt
import DeepinPwCheck.Hash.Md5
import DeepinPwCheck.Hash.Md5Messages
import DeepinPwCheck.Hash.CryptContexts
import DeepinPwCheck.Hash.VerifyPwd
import DeepinPwCheck.Hash.StoredHashes
import DeepinPwCheck.Options
import DeepinPwCheck.Palindrome
import DeepinPwCheck.PalindromeBounds
import DeepinPwCheck.Repetition
import DeepinPwCheck.Keyboard
import DeepinPwCheck.MonotoneRuns
import DeepinPwCheck.CharacterType
import DeepinPwCheck.TypeBuffers
import DeepinPwCheck.TypeGroups
import DeepinPwCheck.SymbolGroups
import DeepinPwCheck.WordCheck
import DeepinPwCheck.Check
import DeepinPwCheck.Strictness
import DeepinPwCheck.PolicyReader
import DeepinPwCheck.PolicyCopy
import DeepinPwCheck.LoadConf
import DeepinPwCheck.DictionaryHit
import DeepinPwCheck.ReportedLimits
import DeepinPwCheck.Messages
import DeepinPwCheck.PolicyAgreement
import DeepinPwCheck.Tool.Rendering
import DeepinPwCheck.Tool.UpdateConf
import DeepinPwCheck.Tool.Reload
import DeepinPwCheck.Tool.AppendString
import DeepinPwCheck.Tool.PolicyText
import DeepinPwCheck.Tool.RoundTrip
import DeepinPwCheck.StrengthLevel
import DeepinPwCheck.Tool.Kept
import DeepinPwCheck.Tool.Repeated
import DeepinPwCheck.Tool.Lifecycle
import DeepinPwCheck.Tool.ShortWrites
import DeepinPwCheck.Acceptance
import DeepinPwCheck.AcceptedStrength
import DeepinPwCheck.Tool.Defaults
import DeepinPwCheck.Runs.Trace
import DeepinPwCheck.Service.Requests
import DeepinPwCheck.Service.Interleaving
import DeepinPwCheck.Service.Backup
import DeepinPwCheck.Service.Manager
import DeepinPwCheck.Service.Replies
import DeepinPwCheck.Service.Refinement
import DeepinPwCheck.Pam.Arguments
import DeepinPwCheck.Pam.Chauthtok
import DeepinPwCheck.Pam.Rounds
